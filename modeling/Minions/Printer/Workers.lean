import Mathlib.Data.List.Perm.Basic
import Mathlib.Logic.Function.Basic

/-! The registry of client threads of `printd.c`.
`add_worker`, `kill_workers` and `client_cleanup` each run under `workerlock` and are one step.
A step that follows a pointer to no cell, or that never leaves its loop, has no result.
-/

namespace Minions.Printer

/-- `struct worker_thread`. Links are addresses; 0 is `NULL`. -/
structure WorkerThread (Tid : Type) where
  next : Nat
  prev : Nat
  tid : Tid
  sockfd : Int

/-- The registry, and what has happened so far. -/
structure Workers (Tid : Type) where
  heap : Nat → Option (WorkerThread Tid)
  workers : Nat
  /-- How many cells were ever allocated. -/
  mallocs : Nat
  /-- The threads that have run `add_worker`, also without success. -/
  begun : List Tid
  /-- The threads that `add_worker` has put in the list and that have not run
  `client_cleanup`, with their sockets. -/
  outstanding : List (Tid × Int)
  /-- The threads that have run `client_cleanup`. -/
  ended : List Tid
  cancelled : List Tid
  closed : List Int

/-- One critical section under `workerlock`, with the allocation before it or the release
after it.
-/
inductive WorkerAction (Tid : Type)
  /-- `add_worker`, when the allocator returns `wtp`. -/
  | addWorker (tid : Tid) (sockfd : Int) (wtp : Nat)
  /-- `add_worker`, when the allocator fails: the thread exits. -/
  | addFails (tid : Tid)
  | killWorkers
  | clientCleanup (tid : Tid)

namespace Workers

variable {Tid : Type}

/-- `a->next = v` -/
def setNext (s : Workers Tid) (a v : Nat) : Option (Workers Tid) :=
  (s.heap a).map fun c => { s with heap := Function.update s.heap a (some { c with next := v }) }

/-- `a->prev = v` -/
def setPrev (s : Workers Tid) (a v : Nat) : Option (Workers Tid) :=
  (s.heap a).map fun c => { s with heap := Function.update s.heap a (some { c with prev := v }) }

/-- The cells that a loop over the list from `a` visits. A loop that visits more cells than
were ever allocated visits one of them for ever.
-/
def walk (heap : Nat → Option (WorkerThread Tid)) : Nat → Nat → Option (List Nat)
  | _, 0 => some []
  | 0, _ + 1 => none
  | fuel + 1, a + 1 => do
      let c ← heap (a + 1)
      let rest ← walk heap fuel c.next
      some ((a + 1) :: rest)

/-- The list that `workers` leads to. -/
def list (s : Workers Tid) : Option (List Nat) := walk s.heap s.mallocs s.workers

def addWorker (s : Workers Tid) (tid : Tid) (sockfd : Int) (wtp : Nat) : Option (Workers Tid) :=
  let s := { s with
    heap := Function.update s.heap wtp (some { next := s.workers, prev := 0, tid, sockfd })
    mallocs := s.mallocs + 1
    begun := tid :: s.begun
    outstanding := (tid, sockfd) :: s.outstanding }
  if s.workers = 0 then some { s with workers := wtp } else s.setPrev s.workers wtp

def killWorkers (s : Workers Tid) : Option (Workers Tid) := do
  let cells ← s.list
  some { s with
    cancelled := s.cancelled ++ cells.filterMap fun a => (s.heap a).map WorkerThread.tid }

variable [DecidableEq Tid]

/-- The search of `client_cleanup`: the first cell from `a` on that belongs to the thread, or
`NULL`.
-/
def find (heap : Nat → Option (WorkerThread Tid)) (tid : Tid) : Nat → Nat → Option Nat
  | _, 0 => some 0
  | 0, _ + 1 => none
  | fuel + 1, a + 1 => do
      let c ← heap (a + 1)
      if c.tid = tid then some (a + 1) else find heap tid fuel c.next

/-- The two assignments with which `client_cleanup` takes a cell out of the list. -/
def unlink (s : Workers Tid) (wtp : Nat) : Option (Workers Tid) := do
  let c ← s.heap wtp
  let s ← if c.next ≠ 0 then s.setPrev c.next c.prev else some s
  let c ← s.heap wtp
  if c.prev ≠ 0 then s.setNext c.prev c.next else some { s with workers := c.next }

def clientCleanup (s : Workers Tid) (tid : Tid) : Option (Workers Tid) := do
  let wtp ← find s.heap tid s.mallocs s.workers
  let s := { s with
    outstanding := s.outstanding.filter fun entry => entry.1 ≠ tid
    ended := tid :: s.ended }
  if wtp = 0 then some s
  else
    let s ← s.unlink wtp
    let c ← s.heap wtp
    some { s with closed := s.closed ++ [c.sockfd], heap := Function.update s.heap wtp none }

/-- Each thread runs `add_worker` once and after it `client_cleanup` once. -/
def Enabled (s : Workers Tid) : WorkerAction Tid → Prop
  | .addWorker tid _ wtp => tid ∉ s.begun ∧ wtp ≠ 0 ∧ s.heap wtp = none
  | .addFails tid => tid ∉ s.begun
  | .killWorkers => True
  | .clientCleanup tid => tid ∈ s.begun ∧ tid ∉ s.ended

def step (s : Workers Tid) : WorkerAction Tid → Option (Workers Tid)
  | .addWorker tid sockfd wtp => s.addWorker tid sockfd wtp
  | .addFails tid => some { s with begun := tid :: s.begun }
  | .killWorkers => s.killWorkers
  | .clientCleanup tid => s.clientCleanup tid

/-- No client has connected yet. -/
def empty : Workers Tid where
  heap := fun _ => none
  workers := 0
  mallocs := 0
  begun := []
  outstanding := []
  ended := []
  cancelled := []
  closed := []

/-- The runs from the start of the daemon: each step with the state it was taken in, oldest
first, and the state reached.
-/
inductive Run : List (Workers Tid × WorkerAction Tid) → Workers Tid → Prop
  | start : Run [] empty
  | next {steps mid action last} (before : Run steps mid) (enabled : mid.Enabled action)
    (step : mid.step action = some last)
    : Run (steps ++ [(mid, action)]) last

/-- The threads and sockets in some cells. -/
def entries (s : Workers Tid) (cells : List Nat) : List (Tid × Int) :=
  cells.filterMap fun a => (s.heap a).map fun c => (c.tid, c.sockfd)

/-- The list from `workers` holds the outstanding threads, each once; `kill_workers` cancels
all of them; and the `client_cleanup` of each closes its socket.
-/
structure Exact (s : Workers Tid) : Prop where
  lists : ∃ cells, s.list = some cells ∧ (s.entries cells).Perm s.outstanding
    ∧ ((s.entries cells).map Prod.fst).Nodup
  kills : ∃ s', s.step .killWorkers = some s'
    ∧ ∀ entry ∈ s.outstanding, entry.1 ∈ s'.cancelled
  cleans : ∀ entry ∈ s.outstanding, ∃ s', s.step (.clientCleanup entry.1) = some s'
    ∧ s'.closed = s.closed ++ [entry.2]

variable {s s' : Workers Tid} {heap heap' : Nat → Option (WorkerThread Tid)}

omit [DecidableEq Tid] in
/-- A loop over the list depends only on the links of the cells it visits. -/
theorem walk_congr {fuel fuel' a : Nat} {cells : List Nat} (le : fuel ≤ fuel')
    (h : walk heap fuel a = some cells)
    (same : ∀ b ∈ cells, (heap' b).map WorkerThread.next = (heap b).map WorkerThread.next)
    : walk heap' fuel' a = some cells := by
  induction fuel generalizing fuel' a cells with
  | zero =>
      cases a with
      | zero => rw [← h, walk, walk]
      | succ a => exact absurd h nofun
  | succ fuel ih =>
      cases a with
      | zero => rw [← h, walk, walk]
      | succ a =>
          obtain ⟨fuel', rfl⟩ : ∃ k, fuel' = k + 1 := ⟨fuel' - 1, by omega⟩
          simp only [walk, Option.bind_eq_bind, Option.bind_eq_some_iff] at h ⊢
          obtain ⟨c, found, rest, tail, eq⟩ := h
          obtain rfl := Option.some.inj eq
          have link := same (a + 1) (by simp)
          obtain ⟨c', found', next⟩ := Option.map_eq_some_iff.mp
            (link.trans (congrArg (Option.map _) found))
          exact ⟨c', found', rest, next ▸ ih (by omega) tail fun b hb => same b (by simp [hb]), rfl⟩

omit [DecidableEq Tid] in
/-- The cells of a walk are on the heap. -/
theorem walk_found {fuel a : Nat} {cells : List Nat} (h : walk heap fuel a = some cells)
    {b : Nat} (member : b ∈ cells)
    : (heap b).isSome := by
  induction fuel generalizing a cells with
  | zero =>
      cases a with
      | zero =>
          obtain rfl := Option.some.inj (h.symm.trans (walk.eq_1 heap 0))
          simp at member
      | succ a => exact absurd h nofun
  | succ fuel ih =>
      cases a with
      | zero =>
          obtain rfl := Option.some.inj (h.symm.trans (walk.eq_1 heap (fuel + 1)))
          simp at member
      | succ a =>
          simp only [walk, Option.bind_eq_bind, Option.bind_eq_some_iff] at h
          obtain ⟨c, found, rest, tail, eq⟩ := h
          obtain rfl := Option.some.inj eq
          rcases List.mem_cons.mp member with rfl | later
          · simp [found]
          · exact ih tail later

omit [DecidableEq Tid] in
/-- When `workers` is set, `add_worker` changes no cell's thread and no link of the list. -/
theorem addWorker_second {tid : Tid} {sockfd : Int} {wtp : Nat} (set : s.workers ≠ 0)
    (fresh : s.heap wtp = none) (added : s.addWorker tid sockfd wtp = some s')
    : s'.workers = s.workers ∧ s'.mallocs = s.mallocs + 1
      ∧ s'.outstanding = (tid, sockfd) :: s.outstanding
      ∧ ∀ a, (s.heap a).isSome
          → (s'.heap a).map WorkerThread.next = (s.heap a).map WorkerThread.next
            ∧ ((s'.heap a).map fun c => (c.tid, c.sockfd))
              = (s.heap a).map fun c => (c.tid, c.sockfd) := by
  simp only [addWorker, if_neg set] at added
  obtain ⟨c, found, rfl⟩ := Option.map_eq_some_iff.mp added
  refine ⟨rfl, rfl, rfl, fun a exists_ => ?_⟩
  have old : ∀ b, (s.heap b).isSome → b ≠ wtp := by
    rintro b exists_ rfl
    simp [fresh] at exists_
  by_cases same : a = s.workers
  · subst same
    have cell : s.heap s.workers = some c :=
      (Function.update_of_ne (old _ exists_) _ _).symm.trans found
    simp [cell]
  · simp [same, old a exists_]

omit [DecidableEq Tid] in
/-- The list is empty while the head pointer is null. -/
theorem list_nil_of_unset (unset : s.workers = 0) : s.list = some [] := by
  rw [list, unset, walk]

/-- The list does not change, so it misses the thread that was added. -/
theorem Exact.not_second {tid : Tid} {sockfd : Int} {wtp : Nat} (exact_ : s.Exact)
    (busy : s.outstanding ≠ []) (fresh : s.heap wtp = none)
    (added : s.addWorker tid sockfd wtp = some s')
    : ¬ s'.Exact := by
  obtain ⟨cells, list, perm, -⟩ := exact_.lists
  have set : s.workers ≠ 0 := by
    intro unset
    obtain rfl := Option.some.inj (list.symm.trans (list_nil_of_unset unset))
    exact busy (List.nil_perm.mp perm)
  obtain ⟨workers, mallocs, outstanding, kept⟩ := addWorker_second set fresh added
  have found : ∀ a ∈ cells, (s.heap a).isSome := fun a member => walk_found list member
  have list' : s'.list = some cells := by
    rw [Workers.list, workers]
    exact walk_congr (by omega) list fun a member => (kept a (found a member)).1
  have entries' : s'.entries cells = s.entries cells :=
    List.filterMap_congr fun a member => (kept a (found a member)).2
  intro again
  obtain ⟨cells', list'', perm', -⟩ := again.lists
  obtain rfl := Option.some.inj (list'.symm.trans list'')
  rw [entries', outstanding] at perm'
  have lengths := perm.length_eq.symm.trans perm'.length_eq
  simp at lengths

-----------------------------------------------------------------------------------------
-- One thread at a time
-----------------------------------------------------------------------------------------

/-- The registry with at most one thread. -/
inductive AtMostOne (s : Workers Tid) : Prop
  | idle (unset : s.workers = 0) (nobody : s.outstanding = [])
  | one (tid : Tid) (sockfd : Int) (wtp : Nat) (set : s.workers = wtp + 1)
    (cell : s.heap (wtp + 1) = some { next := 0, prev := 0, tid, sockfd })
    (somebody : s.outstanding = [(tid, sockfd)]) (allocated : 0 < s.mallocs)

omit [DecidableEq Tid] in
/-- `kill_workers` cancels the threads of the list. -/
theorem killWorkers_of_list {cells : List Nat} (list : s.list = some cells)
    : s.killWorkers
      = some { s with
          cancelled := s.cancelled ++ cells.filterMap fun a => (s.heap a).map WorkerThread.tid } := by
  simp only [killWorkers, Option.bind_eq_bind, list, Option.bind_some]

/-- A cleanup in a registry of one finds the cell of its own thread only. -/
theorem AtMostOne.cleanup (h : s.AtMostOne) (tid : Tid)
    : ∃ s', s.clientCleanup tid = some s' ∧ s'.AtMostOne
        ∧ ∀ entry ∈ s.outstanding, entry.1 = tid → s'.closed = s.closed ++ [entry.2] := by
  cases h with
  | idle unset nobody =>
      refine ⟨{ s with
        outstanding := s.outstanding.filter fun entry => entry.1 ≠ tid
        ended := tid :: s.ended }, ?_, .idle unset ?_, ?_⟩
      · simp [clientCleanup, unset, find]
      · simp [nobody]
      · simp [nobody]
  | one owner sockfd wtp set cell somebody allocated =>
      obtain ⟨n, mallocs⟩ : ∃ n, s.mallocs = n + 1 := ⟨s.mallocs - 1, by omega⟩
      by_cases mine : owner = tid
      · subst mine
        have found : find s.heap owner s.mallocs s.workers = some (wtp + 1) := by
          simp [mallocs, set, find, cell]
        refine ⟨{ s with
          outstanding := s.outstanding.filter fun entry => entry.1 ≠ owner
          ended := owner :: s.ended
          workers := 0
          closed := s.closed ++ [sockfd]
          heap := Function.update s.heap (wtp + 1) none }, ?_, .idle rfl ?_, ?_⟩
        · simp [clientCleanup, found, unlink, cell]
        · simp [somebody]
        · simp [somebody]
      · have found : find s.heap tid s.mallocs s.workers = some 0 := by
          simp [mallocs, set, find, cell, mine]
        refine ⟨{ s with
          outstanding := s.outstanding.filter fun entry => entry.1 ≠ tid
          ended := tid :: s.ended }, ?_, .one owner sockfd wtp set cell ?_ allocated, ?_⟩
        · simp [clientCleanup, found]
        · simp [somebody, mine]
        · simp [somebody, mine]

omit [DecidableEq Tid] in
/-- With at most one worker the list is right. -/
theorem AtMostOne.list (h : s.AtMostOne) : ∃ cells, s.list = some cells
    ∧ s.entries cells = s.outstanding := by
  cases h with
  | idle unset nobody => exact ⟨[], list_nil_of_unset unset, by simp [entries, nobody]⟩
  | one tid sockfd wtp set cell somebody allocated =>
      obtain ⟨n, mallocs⟩ : ∃ n, s.mallocs = n + 1 := ⟨s.mallocs - 1, by omega⟩
      exact ⟨[wtp + 1], by simp [Workers.list, mallocs, set, walk, cell],
        by simp [entries, cell, somebody]⟩

/-- With at most one worker the list is exact. -/
theorem AtMostOne.exact (h : s.AtMostOne) : s.Exact := by
  obtain ⟨cells, list, entries⟩ := h.list
  refine ⟨⟨cells, list, by rw [entries], ?_⟩, ?_, ?_⟩
  · rw [entries]
    cases h with
    | idle unset nobody => simp [nobody]
    | one tid sockfd wtp set cell somebody allocated => simp [somebody]
  · refine ⟨_, killWorkers_of_list list, ?_⟩
    intro entry member
    rw [← entries] at member
    obtain ⟨a, inList, found⟩ := List.mem_filterMap.mp member
    obtain ⟨c, cell, rfl⟩ := Option.map_eq_some_iff.mp found
    exact List.mem_append_right _ (List.mem_filterMap.mpr ⟨a, inList, by simp [cell]⟩)
  · intro entry member
    obtain ⟨s', eq, -, closes⟩ := h.cleanup entry.1
    exact ⟨s', eq, closes entry member rfl⟩

/-- A step keeps the registry of at most one thread, unless it registers a second one. -/
theorem AtMostOne.step (h : s.AtMostOne) {action : WorkerAction Tid} (enabled : s.Enabled action)
    (alone : ∀ tid sockfd wtp, action = .addWorker tid sockfd wtp → s.outstanding = [])
    (taken : s.step action = some s')
    : s'.AtMostOne := by
  cases action with
  | addWorker tid sockfd wtp =>
      have nobody := alone tid sockfd wtp rfl
      cases h with
      | idle unset _ =>
          obtain ⟨-, nonzero, -⟩ := enabled
          obtain ⟨k, rfl⟩ := Nat.exists_eq_succ_of_ne_zero nonzero
          simp only [Workers.step, addWorker, unset, if_true, Option.some.injEq] at taken
          subst taken
          exact .one tid sockfd k rfl (by simp) (by simp [nobody]) (by simp)
      | one tid' sockfd' wtp' set cell somebody allocated => simp [somebody] at nobody
  | addFails tid =>
      obtain rfl := Option.some.inj taken
      cases h with
      | idle unset nobody => exact .idle unset nobody
      | one tid' sockfd' wtp' set cell somebody allocated =>
          exact .one tid' sockfd' wtp' set cell somebody allocated
  | killWorkers =>
      obtain ⟨cells, list, -⟩ := h.list
      obtain rfl := Option.some.inj (taken.symm.trans (killWorkers_of_list list))
      cases h with
      | idle unset nobody => exact .idle unset nobody
      | one tid' sockfd' wtp' set cell somebody allocated =>
          exact .one tid' sockfd' wtp' set cell somebody allocated
  | clientCleanup tid =>
      obtain ⟨s'', eq, kept, -⟩ := h.cleanup tid
      obtain rfl : s' = s'' := Option.some.inj (taken.symm.trans eq)
      exact kept

-----------------------------------------------------------------------------------------
-- Whole runs
-----------------------------------------------------------------------------------------

/-- No thread of the run registers while another one is outstanding. -/
def OneByOne (steps : List (Workers Tid × WorkerAction Tid)) : Prop :=
  ∀ before tid sockfd wtp, (before, .addWorker tid sockfd wtp) ∈ steps → before.outstanding = []

omit [DecidableEq Tid] in
/-- The front of a run with one worker at a time. -/
theorem OneByOne.init {steps : List (Workers Tid × WorkerAction Tid)} {last}
    (h : OneByOne (steps ++ [last]))
    : OneByOne steps :=
  fun before tid sockfd wtp member => h before tid sockfd wtp (List.mem_append_left _ member)

/-- In a run with one worker at a time there is at most one. -/
theorem Run.atMostOne {steps : List (Workers Tid × WorkerAction Tid)} (run : Run steps s)
    (alone : OneByOne steps)
    : s.AtMostOne := by
  induction run with
  | start => exact .idle rfl rfl
  | @next steps mid action last before enabled step ih =>
      refine (ih alone.init).step enabled (fun tid sockfd wtp same => ?_) step
      exact alone mid tid sockfd wtp (by simp [same])

/-- The registry is exact in every state of a run if and only if the run registers its threads
one by one. Witness: a registry of at most one thread is exact, and the first thread that
registers beside another is missing from the list.
-/
theorem run_exact_iff_oneByOne {steps : List (Workers Tid × WorkerAction Tid)}
    (run : Run steps s)
    : (∀ t ∈ steps.map Prod.fst ++ [s], t.Exact) ↔ OneByOne steps := by
  induction run with
  | start =>
      have first : (empty : Workers Tid).Exact := (AtMostOne.idle rfl rfl).exact
      simp [OneByOne, first]
  | @next steps mid action last before enabled step ih =>
      constructor
      · intro all
        have earlier : OneByOne steps :=
          ih.mp fun t member => all t (by simpa using List.mem_append_left [last] member)
        intro s tid sockfd wtp member
        rcases List.mem_append.mp member with old | new
        · exact earlier s tid sockfd wtp old
        · obtain ⟨rfl, rfl⟩ : s = mid ∧ .addWorker tid sockfd wtp = action := by
            simpa using new
          by_contra busy
          exact (all s (by simp)).not_second busy enabled.2.2 step (all last (by simp))
      · intro alone t member
        have kept := (before.atMostOne alone.init).step enabled
          (fun tid sockfd wtp same => alone mid tid sockfd wtp (by simp [same])) step
        rcases List.mem_append.mp member with old | new
        · exact ih.mpr alone.init t (by simpa using old)
        · obtain rfl : t = last := by simpa using new
          exact kept.exact

/-- One client after another. -/
theorem run_exact_iff_oneByOne_sequential
    : ∃ (steps : List (Workers Nat × WorkerAction Nat)) (s : Workers Nat),
        Run steps s ∧ steps.length = 3 ∧ s.closed = [5]
        ∧ ((∀ t ∈ steps.map Prod.fst ++ [s], t.Exact) ↔ OneByOne steps) := by
  let one := (empty.step (.addWorker 1 5 16)).getD (empty : Workers Nat)
  let left := (one.step (.clientCleanup 1)).getD empty
  let two := (left.step (.addWorker 2 6 16)).getD empty
  have run₁ : Run ([] ++ [(empty, .addWorker 1 5 16)]) one :=
    .next .start ⟨by decide, by decide, rfl⟩ rfl
  have run₂ : Run (([] ++ [(empty, .addWorker 1 5 16)]) ++ [(one, .clientCleanup 1)]) left :=
    .next run₁ ⟨by decide, by decide⟩ rfl
  have ready : left.Enabled (.addWorker 2 6 16) := ⟨by decide, by decide, rfl⟩
  have run₃ := Run.next run₂ ready (show _ = some two from rfl)
  exact ⟨_, two, run₃, rfl, rfl, run_exact_iff_oneByOne run₃⟩

/-- The second of two clients that are served at the same time is not in the list:
`kill_workers` does not cancel it, and its own cleanup does not close its socket.
-/
theorem two_clients_not_exact
    : ∃ (steps : List (Workers Nat × WorkerAction Nat)) (s : Workers Nat),
        Run steps s ∧ ¬ s.Exact
        ∧ s.outstanding = [(2, 6), (1, 5)]
        ∧ ((s.step .killWorkers).map Workers.cancelled = some [1])
        ∧ ((s.step (.clientCleanup 2)).map Workers.closed = some []) := by
  let one := (empty.step (.addWorker 1 5 16)).getD (empty : Workers Nat)
  let two := (one.step (.addWorker 2 6 32)).getD empty
  have run₁ : Run ([] ++ [(empty, .addWorker 1 5 16)]) one :=
    .next .start ⟨by decide, by decide, rfl⟩ rfl
  have ready : one.Enabled (.addWorker 2 6 32) := ⟨by decide, by decide, rfl⟩
  have run₂ := Run.next run₁ ready (show _ = some two from rfl)
  have killed : (two.step .killWorkers).map Workers.cancelled = some [1] := rfl
  refine ⟨_, two, run₂, fun exact_ => ?_, rfl, killed, rfl⟩
  obtain ⟨s', eq, all⟩ := exact_.kills
  have missed : s'.cancelled = [1] := by simpa [eq] using killed
  have second := all (2, 6) (by decide)
  simp [missed] at second

end Workers

end Minions.Printer
