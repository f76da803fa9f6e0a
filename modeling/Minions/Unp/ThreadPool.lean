import Minions.Data.Ring
import Minions.Logic.Events
import Mathlib.Logic.Function.Basic

/-! The prethreaded server: `serv08.c` and `pthread08.c`.
The main thread accepts connections and stores their descriptors in a ring; the threads of the
pool take them out. Each critical section under `clifd_mutex` is one step. A thread that waits
for `clifd_cond` tests the ring again whenever it wakes, also without a signal.
-/

namespace Minions.Unp.ThreadPool

open Minions.Data Minions.Logic

def maxNCli : Nat := 32

/-- Where the main thread is: in `Accept`, between `Accept` and the critical section, or in
`err_quit`.
-/
inductive Main
  | accepting
  | storing (connfd : Int)
  | quit
  deriving DecidableEq

/-- Where a thread of the pool is: before the lock, in `Pthread_cond_wait`, or with a
connection to serve.
-/
inductive Thread
  | locking
  | waiting
  | serving (connfd : Int)
  deriving DecidableEq

/-- The shared variables, the threads, and what has happened so far. -/
structure Pool (nthreads : Nat) where
  clifd : Vector Int maxNCli
  iget : Fin maxNCli
  iput : Fin maxNCli
  main : Main
  threads : Fin nthreads → Thread
  threadCount : Fin nthreads → Nat
  /-- What `Accept` has returned, in order. -/
  accepted : List Int
  /-- What the main thread has stored, in order. -/
  stored : List Int
  /-- What the threads have taken, in order, and who. -/
  taken : List (Fin nthreads × Int)

variable {nthreads : Nat}

/-- All threads are made and nothing is accepted. -/
def start (nthreads : Nat) : Pool nthreads where
  clifd := .replicate maxNCli 0
  iget := ⟨0, by decide⟩
  iput := ⟨0, by decide⟩
  main := .accepting
  threads := fun _ => .locking
  threadCount := fun _ => 0
  accepted := []
  stored := []
  taken := []

/-- The critical section of the main thread, which ends in `err_quit` where the ring is
full.
-/
def put (s : Pool nthreads) (connfd : Int) : Pool nthreads :=
  let s := { s with clifd := s.clifd.set s.iput connfd, stored := s.stored ++ [connfd] }
  let s := { s with iput := ringNext s.iput }
  if s.iput = s.iget then { s with main := .quit } else { s with main := .accepting }

/-- The critical section of a thread, from the lock or from the return of
`Pthread_cond_wait` to the unlock or to the next wait.
-/
def get (s : Pool nthreads) (i : Fin nthreads) : Pool nthreads :=
  if s.iget = s.iput then { s with threads := Function.update s.threads i .waiting }
  else
    let connfd := s.clifd[s.iget]
    { s with
      iget := ringNext s.iget
      threads := Function.update s.threads i (.serving connfd)
      taken := s.taken ++ [(i, connfd)] }

/-- `thread_count++`, `web_child` and `Close`. -/
def serve (s : Pool nthreads) (i : Fin nthreads) : Pool nthreads :=
  { s with
    threadCount := Function.update s.threadCount i (s.threadCount i + 1)
    threads := Function.update s.threads i .locking }

inductive Event (nthreads : Nat)
  | accept (connfd : Int)
  | put
  | get (i : Fin nthreads)
  | serve (i : Fin nthreads)

/-- One step of one thread. `err_quit` ends all of them. -/
def step (s : Pool nthreads) : Event nthreads → Option (Pool nthreads)
  | .accept connfd =>
      match s.main with
      | .accepting =>
          some { s with main := .storing connfd, accepted := s.accepted ++ [connfd] }
      | _ => none
  | .put =>
      match s.main with
      | .storing connfd => some (put s connfd)
      | _ => none
  | .get i =>
      match s.main, s.threads i with
      | .quit, _ => none
      | _, .serving _ => none
      | _, _ => some (get s i)
  | .serve i =>
      match s.main, s.threads i with
      | .quit, _ => none
      | _, .serving _ => some (serve s i)
      | _, _ => none

-----------------------------------------------------------------------------------------
-- What the ring holds
-----------------------------------------------------------------------------------------

/-- The descriptor that is accepted and not yet stored. -/
def Main.inHand : Main → List Int
  | .storing connfd => [connfd]
  | _ => []

/-- How many cells lie between `iget` and `iput`, going up and around. Equal positions are
the empty ring, except in `err_quit`, where they are the full one.
-/
def occupied (s : Pool nthreads) : Nat :=
  if s.main = .quit then maxNCli else (s.iput + (maxNCli - s.iget)) % maxNCli

/-- The entries from `iget` to `iput`. -/
def entries (s : Pool nthreads) : List Int := ringCells s.clifd s.iget (occupied s)

/-- The descriptors that are stored and not yet taken, in order. -/
def untaken (s : Pool nthreads) : List Int := s.stored.drop s.taken.length

/-- Each thread has taken the connections it has counted and the one that it serves. -/
def TakenOnce (s : Pool nthreads) : Prop :=
  ∀ i, s.taken.countP (fun entry => entry.1 = i)
    = s.threadCount i + (if s.threads i matches .serving _ then 1 else 0)

/-- What is accepted is taken, in the ring, or in the hand of the main thread, in order. -/
structure Sound (s : Pool nthreads) : Prop where
  accepted : s.accepted = s.stored ++ s.main.inHand
  inOrder : (s.taken.map Prod.snd).IsPrefix s.accepted
  entries : entries s = untaken s
  intact : s.main ≠ .quit → s.iput ∉ ringPath s.iget (untaken s).length
  full : s.main = .quit ↔ (untaken s).length = maxNCli
  once : TakenOnce s

/-- The invariant: `k` descriptors are in the ring, from `iget` on, and follow the taken
ones. Only in `err_quit` do they fill it.
-/
structure Holding (s : Pool nthreads) (k : Nat) : Prop where
  behind : s.iput = ringSkip s.iget k
  stored : s.stored = s.taken.map Prod.snd ++ ringCells s.clifd s.iget k
  room : k ≤ maxNCli
  full : s.main = .quit ↔ k = maxNCli

variable {s s' : Pool nthreads} {k : Nat} {event : Event nthreads}

/-- Where fewer than a full turn is stored, the positions tell how many. -/
theorem Holding.distance (h : Holding s k) (notFull : k < maxNCli)
    : (s.iput.val + (maxNCli - s.iget.val)) % maxNCli = k := by
  have values := congrArg Fin.val h.behind
  rw [ringSkip_val] at values
  have := s.iget.isLt
  unfold maxNCli at *
  omega

/-- The occupied slots are those held. -/
theorem Holding.occupied_eq (h : Holding s k)
    : occupied s = k := by
  unfold occupied
  split
  · next quit => exact (h.full.mp quit).symm
  · next running =>
      apply h.distance
      have := h.room
      have : k ≠ maxNCli := fun full => running (h.full.mpr full)
      omega

/-- The connections that were not taken are in the ring. -/
theorem Holding.untaken_eq (h : Holding s k)
    : untaken s = ringCells s.clifd s.iget k := by
  unfold untaken
  rw [h.stored, ← List.length_map (f := Prod.snd)]
  exact List.drop_left

/-- A running pool has a free cell, so `iput` leads to none of the stored descriptors. -/
theorem Holding.lt_of_running (h : Holding s k) (running : s.main ≠ .quit)
    : k < maxNCli := by
  have := h.room
  have : k ≠ maxNCli := fun full => running (h.full.mpr full)
  omega

-----------------------------------------------------------------------------------------
-- Steps
-----------------------------------------------------------------------------------------

/-- What a step can be. -/
theorem step_cases (h : step s event = some s')
    : s.main ≠ .quit
      ∧ ((∃ connfd, s.main = .accepting
            ∧ s' = { s with main := .storing connfd, accepted := s.accepted ++ [connfd] })
        ∨ (∃ connfd, s.main = .storing connfd ∧ s' = put s connfd)
        ∨ (∃ i, (∀ connfd, s.threads i ≠ .serving connfd) ∧ s' = get s i)
        ∨ (∃ i connfd, s.threads i = .serving connfd ∧ s' = serve s i)) := by
  cases event with
  | accept connfd =>
      simp only [step] at h
      split at h
      · next at_ =>
          cases h
          exact ⟨by simp [at_], .inl ⟨connfd, at_, rfl⟩⟩
      · cases h
  | put =>
      simp only [step] at h
      split at h
      · next connfd at_ =>
          cases h
          exact ⟨by simp [at_], .inr (.inl ⟨connfd, at_, rfl⟩)⟩
      · cases h
  | get i =>
      simp only [step] at h
      split at h
      · cases h
      · cases h
      · next running idle =>
          cases h
          exact ⟨running, .inr (.inr (.inl ⟨i, idle, rfl⟩))⟩
  | serve i =>
      simp only [step] at h
      split at h
      · cases h
      · next connfd at_ running =>
          cases h
          exact ⟨running, .inr (.inr (.inr ⟨i, connfd, at_, rfl⟩))⟩
      · cases h

/-- Storing a descriptor adds it behind the others; the ring is full exactly where `iput`
has come round to `iget`.
-/
theorem Holding.put_succ (h : Holding s k) (running : s.main ≠ .quit) (connfd : Int)
    : Holding (put s connfd) (k + 1) := by
  have room := h.lt_of_running running
  have next : ringNext s.iput = ringSkip s.iget (k + 1) := by
    rw [ringSkip_succ, h.behind]
  have cells : s.stored ++ [connfd]
      = s.taken.map Prod.snd ++ ringCells (s.clifd.set s.iput connfd) s.iget (k + 1) := by
    rw [h.stored, ringCells_push h.behind room, List.append_assoc]
  have turn : ringNext s.iput = s.iget ↔ k + 1 = maxNCli := by
    rw [next]
    exact ringSkip_eq_self_iff (by omega) (by omega)
  unfold ThreadPool.put
  dsimp only
  split
  · next met => exact ⟨next, cells, by omega, by simp [turn.mp met]⟩
  · next apart => exact ⟨next, cells, by omega, by simp [← turn, apart]⟩

/-- Taking a descriptor takes the oldest of the ring, and none where it is empty. -/
theorem Holding.get_pred (h : Holding s k) (running : s.main ≠ .quit) (i : Fin nthreads)
    : ∃ k', Holding (get s i) k' := by
  have room := h.lt_of_running running
  unfold ThreadPool.get
  split
  · exact ⟨k, h.behind, h.stored, h.room, h.full⟩
  · next apart =>
      cases k with
      | zero => exact absurd h.behind.symm apart
      | succ k =>
          refine ⟨k, h.behind, ?_, by omega, ?_⟩
          · rw [h.stored, ringCells_cons]
            simp
          · constructor
            · exact fun quit => absurd quit running
            · omega

/-- Storing a connection accepts none. -/
theorem put_accepted (s : Pool nthreads) (connfd : Int)
    : (put s connfd).accepted = s.accepted := by
  unfold put
  dsimp only
  split <;> rfl

/-- A connection is stored behind the others. -/
theorem put_stored (s : Pool nthreads) (connfd : Int)
    : (put s connfd).stored = s.stored ++ [connfd] := by
  unfold put
  dsimp only
  split <;> rfl

/-- After the store no connection is in hand. -/
theorem put_inHand (s : Pool nthreads) (connfd : Int)
    : (put s connfd).main.inHand = [] := by
  unfold put
  dsimp only
  split <;> rfl

/-- No thread of the pool moves what the main thread counts. -/
theorem get_main (s : Pool nthreads) (i : Fin nthreads)
    : (get s i).accepted = s.accepted ∧ (get s i).stored = s.stored
      ∧ (get s i).main = s.main := by
  unfold get
  split <;> exact ⟨rfl, rfl, rfl⟩

/-- No connection is taken twice. -/
theorem TakenOnce.put (h : TakenOnce s) (connfd : Int)
    : TakenOnce (put s connfd) := by
  unfold ThreadPool.put
  dsimp only
  split <;> exact h

/-- A thread that was not serving takes a descriptor and serves it, or takes none. -/
theorem TakenOnce.get (h : TakenOnce s) {i : Fin nthreads}
    (idle : ∀ connfd, s.threads i ≠ .serving connfd)
    : TakenOnce (get s i) := by
  intro j
  have before := h j
  have resting : (if s.threads i matches .serving _ then 1 else 0) = 0 := by
    split
    · next connfd at_ => exact absurd at_ (idle connfd)
    · rfl
  unfold ThreadPool.get
  split <;> by_cases same : j = i
  · subst same
    simp_all
  · simp_all
  · subst same
    simp_all [List.countP_append]
  · have : i ≠ j := fun eq => same eq.symm
    simp_all [List.countP_append]

/-- A thread that has served its connection counts it. -/
theorem TakenOnce.serve (h : TakenOnce s) {i : Fin nthreads} {connfd : Int}
    (at_ : s.threads i = .serving connfd)
    : TakenOnce (serve s i) := by
  intro j
  have before := h j
  by_cases same : j = i
  · subst same
    simp_all [ThreadPool.serve]
  · simp_all [ThreadPool.serve]

-----------------------------------------------------------------------------------------
-- Every run
-----------------------------------------------------------------------------------------

structure Inv (s : Pool nthreads) : Prop where
  accepted : s.accepted = s.stored ++ s.main.inHand
  holding : ∃ k, Holding s k
  once : TakenOnce s

/-- The invariant holds at the start. -/
theorem start_inv : Inv (start nthreads) := by
  refine ⟨rfl, ⟨0, rfl, rfl, by decide, by simp [start, maxNCli]⟩, ?_⟩
  intro i
  simp [start]

/-- Every step keeps the invariant, by the kind of step. -/
theorem step_inv (h : step s event = some s') (inv : Inv s)
    : Inv s' := by
  obtain ⟨k, holding⟩ := inv.holding
  obtain ⟨running, kind⟩ := step_cases h
  obtain ⟨connfd, at_, rfl⟩ | ⟨connfd, at_, rfl⟩ | ⟨i, idle, rfl⟩ | ⟨i, connfd, at_, rfl⟩ := kind
  · refine ⟨?_, ⟨k, holding.behind, holding.stored, holding.room, ?_⟩, inv.once⟩
    · simp [inv.accepted, at_, Main.inHand]
    · have : k ≠ maxNCli := fun full => running (holding.full.mpr full)
      simp [this]
  · refine ⟨?_, ⟨k + 1, holding.put_succ running connfd⟩, inv.once.put connfd⟩
    rw [put_accepted, put_stored, put_inHand, inv.accepted, at_]
    simp [Main.inHand]
  · refine ⟨?_, holding.get_pred running i, inv.once.get idle⟩
    obtain ⟨accepted, stored, main⟩ := get_main s i
    rw [accepted, stored, main]
    exact inv.accepted
  · exact ⟨inv.accepted, ⟨k, holding.behind, holding.stored, holding.room, holding.full⟩,
      inv.once.serve at_⟩

/-- The invariant implies soundness. -/
theorem Inv.sound (inv : Inv s)
    : Sound s := by
  obtain ⟨k, holding⟩ := inv.holding
  have count : (untaken s).length = k := by
    rw [holding.untaken_eq, length_ringCells]
  constructor
  case accepted => exact inv.accepted
  case inOrder =>
    rw [inv.accepted, holding.stored, List.append_assoc]
    exact List.prefix_append _ _
  case entries =>
    unfold entries
    rw [holding.occupied_eq, holding.untaken_eq]
  case intact =>
    intro running
    rw [count, holding.behind]
    exact ringSkip_not_mem_path (holding.lt_of_running running)
  case full =>
    rw [count]
    exact holding.full
  case once => exact inv.once

/-- In every state that the threads can reach, the descriptors taken by the pool are the first
ones accepted, each taken by one thread, the ring holds the others in order, and the main
thread quits exactly with a full ring. Witness: induction over the run.
-/
theorem reachable_ring_sound (h : Reachable step (start nthreads) s)
    : Sound s :=
  (h.invariant start_inv step_inv).sound

/-- One thread waits in vain, wakes for the first connection, and another takes the second. -/
def twoThreads : List (Event 2) :=
  let first : Fin 2 := ⟨0, Nat.two_pos⟩
  let second : Fin 2 := ⟨1, Nat.one_lt_two⟩
  [.get first, .accept 7, .put, .get first, .accept 8, .put, .get second, .serve first, .accept 7,
    .put]

/-- A run with two threads. -/
theorem reachable_ring_sound_twoThreads
    : ∃ s, runEvents step (start 2) twoThreads = some s
      ∧ s.taken = [(0, 7), (1, 8)] ∧ untaken s = [7] ∧ Sound s := by
  have happens : (runEvents step (start 2) twoThreads).isSome := by decide
  exact ⟨_, (Option.some_get happens).symm, rfl, rfl,
    reachable_ring_sound (.of_isSome happens)⟩

end Minions.Unp.ThreadPool
