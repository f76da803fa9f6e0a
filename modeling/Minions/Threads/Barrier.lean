import Mathlib
import Minions.Data.Merging
import Minions.Logic.Events

/-! Sorting in parallel: each thread sorts one chunk of the numbers, a barrier holds the main
thread until all of them have, and `merge` puts the chunks together.
-/

namespace Minions.Threads.Barrier

open Minions.Data
open Minions.Logic

/-- The largest `long`. -/
def LONG_MAX : Int := 2 ^ 63 - 1

/-- Compares two long integers. -/
def complong (l1 l2 : Int) : Int :=
  if l1 = l2 then 0 else if l1 < l2 then -1 else 1

/-- The library's sorting function, for a comparison function and the array. -/
abbrev Heapsort := (Int → Int → Int) → List Int → List Int

/-- The comparison function is one that a sorting function can work with. -/
structure Compares (compar : Int → Int → Int) : Prop where
  total : ∀ a b, compar a b ≤ 0 ∨ compar b a ≤ 0
  trans : ∀ a b c, compar a b ≤ 0 → compar b c ≤ 0 → compar a c ≤ 0

/-- What the manual page promises: the elements of the array in the order of the function. -/
def Sorts (heapsort : Heapsort) : Prop :=
  ∀ compar, Compares compar → ∀ base,
    (heapsort compar base).Perm base ∧ (heapsort compar base).Pairwise (compar · · ≤ 0)

/-- The comparison is not positive exactly if the numbers are in order. -/
theorem complong_nonpos {l1 l2 : Int} : complong l1 l2 ≤ 0 ↔ l1 ≤ l2 := by
  unfold complong
  split
  · omega
  · split <;> omega

/-- `complong` compares as `heapsort` needs it. -/
theorem compares_complong : Compares complong where
  total a b := by
    simp only [complong_nonpos]
    omega
  trans a b c := by
    simp only [complong_nonpos]
    omega

-- ------------------------------------------------------------------------------------------
-- The threads
-- ------------------------------------------------------------------------------------------

/-- Where a thread is in `thr_fn`. -/
inductive ThreadLoc where
  /-- before `heapsort` returns -/
  | heapsort
  /-- before `pthread_barrier_wait` -/
  | wait
  /-- at the barrier -/
  | waiting
  deriving DecidableEq

/-- A thread with the argument it was created with. -/
structure Thread where
  idx : Nat
  loc : ThreadLoc

/-- Where `main` is. -/
inductive MainLoc where
  /-- in the loop that creates the threads -/
  | create
  /-- at the barrier -/
  | waiting
  /-- past the barrier, where it calls `merge` -/
  | merge
  /-- after `err_exit` -/
  | exited
  deriving DecidableEq

/-- The numbers, the threads and the number of those that have arrived at `b`. -/
structure State where
  nums : List Int
  threads : List Thread
  arrived : Nat
  main : MainLoc

/-- What can happen next. -/
inductive Event where
  /-- `pthread_create` returns, with or without an error -/
  | create (err : Bool)
  /-- `heapsort` returns in a thread -/
  | heapsort (i : Nat)
  /-- a thread arrives at the barrier -/
  | wait (i : Nat)
  /-- `main` arrives at the barrier -/
  | mainWait
  /-- the barrier lets `main` go on -/
  | passed

variable {heapsort : Heapsort} {nthr tnum : Nat} {nums origin : List Int}

/-- The numbers after `heapsort(&nums[base], nmemb, sizeof(long), complong)`. -/
def sortFrom (heapsort : Heapsort) (nums : List Int) (base nmemb : Nat) : List Int :=
  nums.take base ++ heapsort complong ((nums.drop base).take nmemb) ++ nums.drop (base + nmemb)

/-- `main` before it has created a thread. -/
def start (nums : List Int) : State := ⟨nums, [], 0, .create⟩

/-- `thr_fn` in every thread and `main`, with `NTHR` threads and `TNUM` numbers for each.
No other thread looks at a chunk before the barrier, so that sorting it is one step.
-/
def step (heapsort : Heapsort) (nthr tnum : Nat) (s : State) (event : Event) : Option State :=
  if s.main = .exited then none
  else match event with
  | .create err =>
      if s.main = .create ∧ s.threads.length < nthr then
        if err then some { s with main := .exited }
        else some { s with threads := s.threads ++ [⟨s.threads.length * tnum, .heapsort⟩] }
      else none
  | .heapsort i => do
      let thread ← s.threads[i]?
      if thread.loc = .heapsort then
        some { s with
          nums := sortFrom heapsort s.nums thread.idx tnum
          threads := s.threads.set i { thread with loc := .wait } }
      else none
  | .wait i => do
      let thread ← s.threads[i]?
      if thread.loc = .wait then
        some { s with
          threads := s.threads.set i { thread with loc := .waiting }
          arrived := s.arrived + 1 }
      else none
  | .mainWait =>
      if s.main = .create ∧ s.threads.length = nthr then
        some { s with main := .waiting, arrived := s.arrived + 1 }
      else none
  | .passed =>
      -- The barrier was made for `NTHR+1`.
      if s.main = .waiting ∧ s.arrived = nthr + 1 then some { s with main := .merge } else none

/-- The chunk of the numbers that begins at `i * TNUM`. -/
def chunk (tnum : Nat) (nums : List Int) (i : Nat) : List Int := (nums.drop (i * tnum)).take tnum

-- ------------------------------------------------------------------------------------------
-- The merge
-- ------------------------------------------------------------------------------------------

/-- The variables of `merge`. Nothing is assigned to `minidx` at first. -/
structure Merge where
  idx : List Nat
  minidx : Option Nat
  snums : List Int

/-- `nums[place]`, for an index that has not left the chunk. -/
def inChunk (tnum : Nat) (nums : List Int) (i place : Nat) : Option Int :=
  if i * tnum ≤ place ∧ place < (i + 1) * tnum then nums[place]? else none

/-- The body of the inner loop, with `num` and `minidx`. -/
def compare (tnum : Nat) (nums : List Int) (idx : List Nat) (found : Int × Option Nat) (i : Nat)
    : Option (Int × Option Nat) := do
  let place ← idx[i]?
  if place < (i + 1) * tnum then
    let value ← inChunk tnum nums i place
    if value < found.1 then some (value, some i) else some found
  else some found

/-- The body of the outer loop. -/
def mergeOne (nthr tnum : Nat) (nums : List Int) (m : Merge) : Option Merge := do
  let found ← (List.range nthr).foldlM (compare tnum nums m.idx) (LONG_MAX, m.minidx)
  let i ← found.2
  let place ← m.idx[i]?
  let value ← inChunk tnum nums i place
  some ⟨m.idx.set i (place + 1), some i, m.snums ++ [value]⟩

/-- The rounds of the outer loop that are left. -/
def mergeRounds (nthr tnum : Nat) (nums : List Int) : Nat → Merge → Option Merge
  | 0, m => some m
  | left + 1, m => (mergeOne nthr tnum nums m).bind (mergeRounds nthr tnum nums left)

/-- Merges the results of the individual sorted ranges.
There is no result where `minidx` is used before it is assigned or an index leaves its chunk.
-/
def merge (nthr tnum : Nat) (nums : List Int) : Option (List Int) :=
  (mergeRounds nthr tnum nums (nthr * tnum) ⟨(List.range nthr).map (· * tnum), none, []⟩).map
    Merge.snums

example : merge 3 2 [4, 9, 1, 4, 4, 7] = some [1, 4, 4, 4, 7, 9] := by decide

-- ------------------------------------------------------------------------------------------
-- Chunks
-- ------------------------------------------------------------------------------------------

/-- The numbers of a chunk. -/
theorem getElem?_chunk {i k : Nat}
    : (chunk tnum nums i)[k]? = if k < tnum then nums[i * tnum + k]? else none := by
  rw [chunk, List.getElem?_take]
  split <;> simp

/-- A chunk inside the array is full. -/
theorem length_chunk {i : Nat} (inside : (i + 1) * tnum ≤ nums.length)
    : (chunk tnum nums i).length = tnum := by
  rw [Nat.add_mul] at inside
  rw [chunk, List.length_take, List.length_drop]
  omega

/-- The chunks make up the numbers, by induction on their number. -/
theorem flatten_chunks (length : nums.length = nthr * tnum)
    : ((List.range nthr).map (chunk tnum nums)).flatten = nums := by
  have firsts : ∀ n, ((List.range n).map (chunk tnum nums)).flatten = nums.take (n * tnum) := by
    intro n
    induction n with
    | zero => simp
    | succ n ih =>
        rw [List.range_succ, List.map_append, List.flatten_append, ih, Nat.add_mul, Nat.one_mul,
          List.take_add]
        simp [chunk]
  rw [firsts, ← length, List.take_length]

/-- What is left of the chunk from an index on. -/
def rest (tnum : Nat) (nums : List Int) (i place : Nat) : List Int :=
  (nums.drop place).take ((i + 1) * tnum - place)

/-- At its start the whole chunk is left. -/
theorem rest_start {i : Nat} : rest tnum nums i (i * tnum) = chunk tnum nums i := by
  rw [rest, chunk, Nat.add_mul, Nat.one_mul, Nat.add_sub_cancel_left]

/-- Before its end a chunk goes on with the number at the index. -/
theorem rest_eq_cons {i place : Nat} (before : place < (i + 1) * tnum)
    (inside : (i + 1) * tnum ≤ nums.length)
    : ∃ value, nums[place]? = some value
      ∧ rest tnum nums i place = value :: rest tnum nums i (place + 1) := by
  have there : place < nums.length := before.trans_le inside
  refine ⟨nums[place], List.getElem?_eq_getElem there, ?_⟩
  obtain ⟨more, eq⟩ : ∃ more, (i + 1) * tnum - place = more + 1 :=
    ⟨(i + 1) * tnum - place - 1, by omega⟩
  have less : (i + 1) * tnum - (place + 1) = more := by omega
  rw [rest, rest, eq, less, List.drop_eq_getElem_cons there, List.take_succ_cons]

/-- Behind its end nothing of the chunk is left. -/
theorem rest_eq_nil {i place : Nat} (after : ¬ place < (i + 1) * tnum)
    : rest tnum nums i place = [] := by
  have none_left : (i + 1) * tnum - place = 0 := by omega
  rw [rest, none_left, List.take_zero]

/-- What is left of all chunks. -/
def rests (tnum : Nat) (nums : List Int) (idx : List Nat) : List (List Int) :=
  idx.mapIdx (rest tnum nums)

/-- Every index is in its chunk or at its end. -/
structure Cursors (nthr tnum : Nat) (nums : List Int) (idx : List Nat) : Prop where
  length : nums.length = nthr * tnum
  count : idx.length = nthr
  inside : ∀ i place, idx[i]? = some place → i * tnum ≤ place ∧ place ≤ (i + 1) * tnum

section Cursors

variable {idx : List Nat}

/-- The chunks lie inside the array. -/
theorem Cursors.chunk_le (c : Cursors nthr tnum nums idx) {i : Nat} (h : i < nthr)
    : (i + 1) * tnum ≤ nums.length := by
  rw [c.length]
  exact Nat.mul_le_mul_right tnum h

/-- Every chunk has a cursor. -/
theorem Cursors.exists_place (c : Cursors nthr tnum nums idx) {i : Nat} (h : i < nthr)
    : ∃ place, idx[i]? = some place
      ∧ (rests tnum nums idx)[i]? = some (rest tnum nums i place) := by
  have inside : i < idx.length := c.count.symm ▸ h
  exact ⟨idx[i], List.getElem?_eq_getElem inside, by simp [rests, inside]⟩

/-- The comparison of one chunk takes its next number if that is smaller. -/
theorem Cursors.compare_eq (c : Cursors nthr tnum nums idx) {i : Nat} (h : i < nthr)
    (found : Int × Option Nat)
    : ∃ run, (rests tnum nums idx)[i]? = some run
      ∧ compare tnum nums idx found i
        = some (run.head?.elim found fun value =>
            if value < found.1 then (value, some i) else found) := by
  obtain ⟨place, at_i, run_i⟩ := c.exists_place h
  refine ⟨_, run_i, ?_⟩
  by_cases before : place < (i + 1) * tnum
  · obtain ⟨value, there, run_eq⟩ := rest_eq_cons before (c.chunk_le h)
    have here : inChunk tnum nums i place = some value := by
      rw [inChunk, if_pos ⟨(c.inside i place at_i).1, before⟩, there]
    rw [run_eq]
    simp only [compare, at_i, before, here, Option.bind_eq_bind, Option.bind_some, if_true,
      List.head?_cons, Option.elim_some]
    split <;> rfl
  · rw [rest_eq_nil before]
    simp [compare, at_i, before]

/-- What the inner loop has found after some of the chunks: `num` is at most the next number of
each of them, and is the next number of the chunk `minidx` once it is below `LONG_MAX`.
-/
structure Found (runs : List (List Int)) (k : Nat) (found : Int × Option Nat) : Prop where
  least : ∀ i < k, ∀ run, runs[i]? = some run → ∀ b ∈ run.head?, found.1 ≤ b
  at_minidx : found.1 < LONG_MAX
    → ∃ i < k, found.2 = some i ∧ ∃ run, runs[i]? = some run ∧ run.head? = some found.1

/-- The inner loop finds the least of the next numbers, by induction on the chunks. -/
theorem Cursors.exists_found (c : Cursors nthr tnum nums idx) (minidx : Option Nat) {k : Nat}
    (h : k ≤ nthr)
    : ∃ found, (List.range k).foldlM (compare tnum nums idx) (LONG_MAX, minidx) = some found
      ∧ Found (rests tnum nums idx) k found := by
  induction k with
  | zero =>
      refine ⟨_, rfl, ?_, ?_⟩
      · intro i none_before
        exact absurd none_before (Nat.not_lt_zero i)
      · intro less
        exact absurd less (Int.lt_irrefl _)
  | succ k ih =>
      obtain ⟨found, loop, sofar⟩ := ih (by omega)
      obtain ⟨run, run_k, body⟩ := c.compare_eq (i := k) (by omega) found
      rw [List.range_succ, List.foldlM_append, loop]
      simp only [List.foldlM_cons, List.foldlM_nil, Option.bind_eq_bind, Option.bind_some, body,
        Option.pure_def]
      refine ⟨_, rfl, ?_⟩
      have earlier : ∀ num, num ≤ found.1 → (∀ b ∈ run.head?, num ≤ b)
          → ∀ i < k + 1, ∀ run', (rests tnum nums idx)[i]? = some run'
            → ∀ b ∈ run'.head?, num ≤ b := by
        intro num small here i hi run' run_i b hb
        rcases Nat.lt_succ_iff_lt_or_eq.mp hi with before | rfl
        · exact small.trans (sofar.least i before run' run_i b hb)
        · obtain rfl := Option.some.inj (run_k.symm.trans run_i)
          exact here b hb
      have kept : (∀ b ∈ run.head?, found.1 ≤ b) → Found (rests tnum nums idx) (k + 1) found := by
        intro here
        refine ⟨earlier _ (Int.le_refl _) here, fun less => ?_⟩
        obtain ⟨i, before, eq, there⟩ := sofar.at_minidx less
        exact ⟨i, by omega, eq, there⟩
      cases head : run.head? with
      | none => exact kept (by simp [head])
      | some value =>
          simp only [Option.elim_some]
          split
          next smaller =>
            refine ⟨earlier value (Int.le_of_lt smaller) ?_, ?_⟩
            · intro b hb
              rw [head] at hb
              obtain rfl := Option.some.inj hb
              exact Int.le_refl _
            · intro _
              exact ⟨k, by omega, rfl, run, run_k, head⟩
          next not_smaller =>
            refine kept ?_
            intro b hb
            rw [head] at hb
            obtain rfl := Option.some.inj hb
            omega

/-- One round takes a least one of the next numbers, as long as there is any. -/
theorem Cursors.exists_mergeOne {m : Merge} (c : Cursors nthr tnum nums m.idx)
    (small : ∀ b ∈ (rests tnum nums m.idx).flatten, b < LONG_MAX)
    (more : ∃ run ∈ rests tnum nums m.idx, run ≠ [])
    : ∃ value idx i, mergeOne nthr tnum nums m = some ⟨idx, some i, m.snums ++ [value]⟩
      ∧ Cursors nthr tnum nums idx
      ∧ TakesLeast (rests tnum nums m.idx) value (rests tnum nums idx) := by
  obtain ⟨found, loop, least, at_minidx⟩ := c.exists_found m.minidx (Nat.le_refl nthr)
  have count : (rests tnum nums m.idx).length = nthr := by simp [rests, c.count]
  have below : found.1 < LONG_MAX := by
    obtain ⟨run, member, nonempty⟩ := more
    obtain ⟨j, inside, eq⟩ := List.getElem_of_mem member
    have first := least j (by omega) run (eq ▸ List.getElem?_eq_getElem inside) _
      (List.head?_eq_some_head nonempty)
    exact first.trans_lt (small _ (List.mem_flatten_of_mem member (List.head_mem nonempty)))
  obtain ⟨i, hi, eq, run, run_i, head⟩ := at_minidx below
  obtain ⟨place, at_i, rest_i⟩ := c.exists_place hi
  obtain rfl : run = rest tnum nums i place := Option.some.inj (run_i.symm.trans rest_i)
  have before : place < (i + 1) * tnum := by
    by_contra after
    rw [rest_eq_nil after] at head
    exact absurd head nofun
  obtain ⟨value, there, run_eq⟩ := rest_eq_cons before (c.chunk_le hi)
  have num : value = found.1 := by
    rw [run_eq, List.head?_cons] at head
    exact Option.some.inj head
  have here : inChunk tnum nums i place = some value := by
    rw [inChunk, if_pos ⟨(c.inside i place at_i).1, before⟩, there]
  refine ⟨value, m.idx.set i (place + 1), i, ?_, ⟨c.length, ?_, ?_⟩, 
    ⟨⟨i, rest tnum nums i (place + 1), ?_, ?_⟩, ?_⟩⟩
  · simp [mergeOne, loop, eq, at_i, here]
  · rw [List.length_set, c.count]
  · intro j place' at_j
    rw [List.getElem?_set] at at_j
    split at at_j
    next same =>
      subst same
      split at at_j
      next =>
        obtain rfl := Option.some.inj at_j
        have := (c.inside i place at_i).1
        omega
      next => exact absurd at_j nofun
    next => exact c.inside j place' at_j
  · rw [rest_i, run_eq]
  · rw [rests, rests, List.mapIdx_set]
  · intro run member b hb
    obtain ⟨j, inside, eq'⟩ := List.getElem_of_mem member
    rw [num]
    exact least j (by omega) run (eq' ▸ List.getElem?_eq_getElem inside) b hb

/-- The rounds finish the merge, by induction on how many are left. -/
theorem exists_mergeRounds (origin : List (List Int)) {left : Nat} {m : Merge}
    (c : Cursors nthr tnum nums m.idx)
    (merging : Merging origin m.snums (rests tnum nums m.idx))
    (small : ∀ b ∈ origin.flatten, b < LONG_MAX)
    (rounds : m.snums.length + left = origin.flatten.length)
    : ∃ m', mergeRounds nthr tnum nums left m = some m'
      ∧ m'.snums.Perm origin.flatten ∧ m'.snums.Pairwise (· ≤ ·) := by
  induction left generalizing m with
  | zero => exact ⟨m, rfl, merging.finish rounds⟩
  | succ left ih =>
      have small_left : ∀ b ∈ (rests tnum nums m.idx).flatten, b < LONG_MAX := by
        intro b hb
        exact small b (merging.same.mem_iff.mp (List.mem_append_right _ hb))
      obtain ⟨value, idx, i, one, cursors, takes⟩ :=
        c.exists_mergeOne small_left (merging.exists_cons (by omega))
      rw [mergeRounds, one, Option.bind_some]
      refine ih (m := ⟨idx, some i, m.snums ++ [value]⟩) cursors (merging.take takes) ?_
      rw [List.length_append, List.length_singleton]
      omega

end Cursors

/-- Merging ordered chunks of numbers below `LONG_MAX` puts all of them in order. -/
theorem exists_merge (length : nums.length = nthr * tnum) (small : ∀ b ∈ nums, b < LONG_MAX)
    (sorted : ∀ i < nthr, (chunk tnum nums i).Pairwise (· ≤ ·))
    : ∃ snums, merge nthr tnum nums = some snums
      ∧ snums.Perm nums ∧ snums.Pairwise (· ≤ ·) := by
  have chunks : rests tnum nums ((List.range nthr).map (· * tnum))
      = (List.range nthr).map (chunk tnum nums) := by
    apply List.ext_getElem
    · simp [rests]
    · intro i _ _
      simp [rests, rest_start]
  have all := flatten_chunks length
  have cursors : Cursors nthr tnum nums ((List.range nthr).map (· * tnum)) := by
    refine ⟨length, by simp, ?_⟩
    intro i place at_i
    obtain ⟨_, eq⟩ := List.getElem?_eq_some_iff.mp at_i
    rw [List.getElem_map, List.getElem_range] at eq
    rw [← eq]
    exact ⟨Nat.le_refl _, Nat.mul_le_mul_right tnum (Nat.le_succ i)⟩
  have merging : Merging ((List.range nthr).map (chunk tnum nums)) []
      (rests tnum nums ((List.range nthr).map (· * tnum))) := by
    rw [chunks]
    refine Merging.start ?_
    intro run member
    obtain ⟨i, inside, rfl⟩ := List.mem_map.mp member
    exact sorted i (List.mem_range.mp inside)
  have rounds : ([] : List Int).length + nthr * tnum
      = ((List.range nthr).map (chunk tnum nums)).flatten.length := by
    rw [all, length, List.length_nil, Nat.zero_add]
  obtain ⟨m', run, result⟩ := exists_mergeRounds (m := ⟨_, none, []⟩) _ cursors merging
    (by rwa [all]) rounds
  rw [all] at result
  exact ⟨m'.snums, by rw [merge, run, Option.map_some], result⟩

-- ------------------------------------------------------------------------------------------
-- What holds before the barrier
-- ------------------------------------------------------------------------------------------

section Sorting

variable {i : Nat}

/-- Sorting a part permutes the array. -/
theorem perm_sortFrom (sorts : Sorts heapsort) (nums : List Int) (base nmemb : Nat)
    : (sortFrom heapsort nums base nmemb).Perm nums := by
  have middle := (sorts complong compares_complong ((nums.drop base).take nmemb)).1
  have parts : nums.take base ++ (nums.drop base).take nmemb ++ nums.drop (base + nmemb)
      = nums := by
    rw [List.append_assoc, ← List.drop_drop, List.take_append_drop, List.take_append_drop]
  rw [sortFrom]
  conv => rhs; rw [← parts]
  exact (middle.append_left _).append_right _

/-- Sorting a chunk leaves the other chunks as they are. -/
theorem chunk_sortFrom (sorts : Sorts heapsort) {nums : List Int}
    (inside : (i + 1) * tnum ≤ nums.length) (j : Nat)
    : chunk tnum (sortFrom heapsort nums (i * tnum) tnum) j
      = if j = i then heapsort complong (chunk tnum nums i) else chunk tnum nums j := by
  have same := (sorts complong compares_complong (chunk tnum nums i)).1.length_eq
  rw [length_chunk inside] at same
  have eq := Nat.add_mul i 1 tnum
  rw [Nat.one_mul] at eq
  have front : (nums.take (i * tnum)).length = i * tnum := by
    rw [List.length_take]
    omega
  rw [sortFrom, ← chunk]
  by_cases same_chunk : j = i
  · rw [if_pos same_chunk, same_chunk, chunk, List.append_assoc, List.drop_left' front,
      List.take_left' same]
  · rw [if_neg same_chunk]
    apply List.ext_getElem?
    intro k
    rw [getElem?_chunk, getElem?_chunk]
    split
    next within =>
      rcases Nat.lt_or_gt_of_ne same_chunk with before | after
      · have ends : (j + 1) * tnum ≤ i * tnum := Nat.mul_le_mul_right tnum before
        rw [Nat.add_mul, Nat.one_mul] at ends
        rw [List.append_assoc, List.getElem?_append_left (by omega),
          List.getElem?_take_of_lt (by omega)]
      · have ends : (i + 1) * tnum ≤ j * tnum := Nat.mul_le_mul_right tnum after
        rw [List.getElem?_append_right (by rw [List.length_append]; omega), List.getElem?_drop,
          List.length_append, front, same]
        congr 1
        omega
    next => rfl

end Sorting

/-- What holds while the threads sort. -/
structure Inv (nthr tnum : Nat) (origin : List Int) (s : State) : Prop where
  same : s.nums.Perm origin
  few : s.threads.length ≤ nthr
  created : s.main = .waiting ∨ s.main = .merge → s.threads.length = nthr
  idx : ∀ i thread, s.threads[i]? = some thread → thread.idx = i * tnum
  sorted : ∀ i thread, s.threads[i]? = some thread → thread.loc ≠ .heapsort
    → (chunk tnum s.nums i).Pairwise (· ≤ ·)
  arrived : s.arrived
    = s.threads.countP (·.loc == .waiting) + if s.main = .create ∨ s.main = .exited then 0 else 1
  finished : s.main = .merge → ∀ thread ∈ s.threads, thread.loc = .waiting

/-- The invariant holds at the start. -/
theorem inv_start : Inv nthr tnum origin (start origin) where
  same := .refl _
  few := Nat.zero_le _
  created h := by simp [start] at h
  idx i thread h := by simp [start] at h
  sorted i thread h := by simp [start] at h
  arrived := by simp [start]
  finished h := by simp [start] at h

section Step

variable {s s' : State} {i : Nat} {thread : Thread} {loc : ThreadLoc}

/-- A place after one thread has gone on holds that thread or what it held before. -/
private theorem set_cases {threads : List Thread} {j : Nat} {other : Thread}
    (at_i : threads[i]? = some thread)
    (at_j : (threads.set i { thread with loc := loc })[j]? = some other)
    : j = i ∧ other = { thread with loc := loc } ∨ j ≠ i ∧ threads[j]? = some other := by
  rw [List.getElem?_set] at at_j
  by_cases same : i = j
  · obtain ⟨inside, -⟩ := List.getElem?_eq_some_iff.mp at_i
    rw [if_pos same, if_pos inside] at at_j
    exact .inl ⟨same.symm, (Option.some.inj at_j).symm⟩
  · rw [if_neg same] at at_j
    exact .inr ⟨Ne.symm same, at_j⟩

/-- How many threads are at the barrier after one has gone on that was not. -/
private theorem countP_set_waiting {threads : List Thread} (at_i : threads[i]? = some thread)
    (notYet : thread.loc ≠ .waiting)
    : (threads.set i { thread with loc := loc }).countP (·.loc == .waiting)
      = threads.countP (·.loc == .waiting) + if loc = .waiting then 1 else 0 := by
  obtain ⟨inside, eq⟩ := List.getElem?_eq_some_iff.mp at_i
  rw [List.countP_set inside, eq]
  simp [notYet]

/-- A new thread keeps the invariant. -/
theorem Inv.create (inv : Inv nthr tnum origin s) (creating : s.main = .create)
    (less : s.threads.length < nthr)
    : Inv nthr tnum origin
        { s with threads := s.threads ++ [⟨s.threads.length * tnum, .heapsort⟩] } := by
  have last : ∀ i thread, (s.threads ++ [⟨s.threads.length * tnum, .heapsort⟩])[i]? = some thread
      → s.threads[i]? = some thread
        ∨ i = s.threads.length ∧ thread = ⟨s.threads.length * tnum, .heapsort⟩ := by
    intro i thread at_i
    rcases Nat.lt_trichotomy i s.threads.length with before | rfl | after
    · exact .inl (by rwa [List.getElem?_append_left before] at at_i)
    · exact .inr ⟨rfl, by simpa using at_i.symm⟩
    · rw [List.getElem?_eq_none (by simpa using Nat.succ_le_of_lt after)] at at_i
      exact absurd at_i nofun
  refine ⟨inv.same, by simpa using Nat.succ_le_of_lt less, ?_, ?_, ?_, ?_, ?_⟩
  · intro passed
    simp [creating] at passed
  · intro i thread at_i
    rcases last i thread at_i with old | ⟨rfl, rfl⟩
    · exact inv.idx i thread old
    · rfl
  · intro i thread at_i done
    rcases last i thread at_i with old | ⟨rfl, rfl⟩
    · exact inv.sorted i thread old done
    · exact absurd rfl done
  · simpa using inv.arrived
  · intro passed
    simp [creating] at passed

/-- A chunk that is sorted keeps the invariant. -/
theorem Inv.sortChunk (inv : Inv nthr tnum origin s) (sorts : Sorts heapsort)
    (length : origin.length = nthr * tnum) (at_i : s.threads[i]? = some thread)
    (sorting : thread.loc = .heapsort)
    : Inv nthr tnum origin { s with
        nums := sortFrom heapsort s.nums thread.idx tnum
        threads := s.threads.set i { thread with loc := .wait } } := by
  have inside : (i + 1) * tnum ≤ s.nums.length := by
    obtain ⟨less, -⟩ := List.getElem?_eq_some_iff.mp at_i
    rw [inv.same.length_eq, length]
    exact Nat.mul_le_mul_right tnum (less.trans_le inv.few)
  have idx := inv.idx i thread at_i
  have here : thread ∈ s.threads := List.mem_of_getElem? at_i
  refine ⟨(perm_sortFrom sorts _ _ _).trans inv.same, by simpa using inv.few,
    by simpa using inv.created, ?_, ?_, ?_, ?_⟩
  · intro j other at_j
    rcases set_cases at_i at_j with ⟨rfl, rfl⟩ | ⟨-, old⟩
    · exact idx
    · exact inv.idx j other old
  · intro j other at_j done
    rw [idx, chunk_sortFrom sorts inside]
    rcases set_cases at_i at_j with ⟨rfl, -⟩ | ⟨different, old⟩
    · rw [if_pos rfl]
      exact (sorts complong compares_complong _).2.imp complong_nonpos.mp
    · rw [if_neg different]
      exact inv.sorted j other old done
  · rw [countP_set_waiting at_i (by rw [sorting]; nofun)]
    simpa using inv.arrived
  · intro passed
    exact absurd (inv.finished passed thread here) (by rw [sorting]; nofun)

/-- A thread at the barrier keeps the invariant. -/
theorem Inv.wait (inv : Inv nthr tnum origin s) (at_i : s.threads[i]? = some thread)
    (sorted : thread.loc = .wait)
    : Inv nthr tnum origin { s with
        threads := s.threads.set i { thread with loc := .waiting }
        arrived := s.arrived + 1 } := by
  have here : thread ∈ s.threads := List.mem_of_getElem? at_i
  refine ⟨inv.same, by simpa using inv.few, by simpa using inv.created, ?_, ?_, ?_, ?_⟩
  · intro j other at_j
    rcases set_cases at_i at_j with ⟨rfl, rfl⟩ | ⟨-, old⟩
    · exact inv.idx j thread at_i
    · exact inv.idx j other old
  · intro j other at_j done
    rcases set_cases at_i at_j with ⟨rfl, -⟩ | ⟨-, old⟩
    · exact inv.sorted j thread at_i (by rw [sorted]; nofun)
    · exact inv.sorted j other old done
  · have arrived := inv.arrived
    rw [countP_set_waiting at_i (by rw [sorted]; nofun), if_pos rfl]
    simp only [arrived]
    omega
  · intro passed
    exact absurd (inv.finished passed thread here) (by rw [sorted]; nofun)

/-- The barrier lets `main` pass only once every thread is at it, since as many have arrived as
there are threads and `main`.
-/
theorem Inv.passed (inv : Inv nthr tnum origin s) (waiting : s.main = .waiting)
    (arrived : s.arrived = nthr + 1)
    : Inv nthr tnum origin { s with main := .merge } := by
  have count := inv.arrived
  have length := inv.created (.inl waiting)
  rw [arrived, if_neg (by simp [waiting])] at count
  have all : s.threads.countP (·.loc == .waiting) = s.threads.length := by omega
  refine ⟨inv.same, inv.few, fun _ => length, inv.idx, inv.sorted, ?_, ?_⟩
  · simpa [waiting] using inv.arrived
  · intro _ thread member
    simpa using List.countP_eq_length.mp all thread member

/-- Every event keeps the invariant. -/
theorem inv_step (sorts : Sorts heapsort) (length : origin.length = nthr * tnum) {event : Event}
    (h : step heapsort nthr tnum s event = some s') (inv : Inv nthr tnum origin s)
    : Inv nthr tnum origin s' := by
  unfold step at h
  split at h
  · cases h
  next running =>
    cases event with
    | create err =>
        simp only at h
        split at h
        next creating =>
          cases err with
          | true =>
              cases h
              exact ⟨inv.same, inv.few, by simp, inv.idx, inv.sorted,
                by simpa [creating.1] using inv.arrived, by simp⟩
          | false =>
              cases h
              exact inv.create creating.1 creating.2
        next => cases h
    | heapsort i =>
        obtain ⟨thread, at_i, h⟩ := Option.bind_eq_some_iff.mp h
        split at h
        next sorting =>
          cases h
          exact inv.sortChunk sorts length at_i sorting
        next => cases h
    | wait i =>
        obtain ⟨thread, at_i, h⟩ := Option.bind_eq_some_iff.mp h
        split at h
        next sorted =>
          cases h
          exact inv.wait at_i sorted
        next => cases h
    | mainWait =>
        simp only at h
        split at h
        next creating =>
          cases h
          have arrived := inv.arrived
          exact ⟨inv.same, inv.few, fun _ => creating.2, inv.idx, inv.sorted,
            by simpa [creating.1] using arrived, by simp⟩
        next => cases h
    | passed =>
        simp only at h
        split at h
        next last =>
          cases h
          exact inv.passed last.1 last.2
        next => cases h

end Step

/-- Where `main` is past the barrier, `merge` puts the numbers in order. -/
theorem merge_sorts (sorts : Sorts heapsort) (length : nums.length = nthr * tnum)
    (small : ∀ num ∈ nums, num < LONG_MAX) {s : State}
    (reachable : Reachable (step heapsort nthr tnum) (start nums) s) (passed : s.main = .merge)
    : ∃ snums, merge nthr tnum s.nums = some snums
      ∧ snums.Perm nums ∧ snums.Pairwise (· ≤ ·) := by
  have inv : Inv nthr tnum nums s :=
    reachable.invariant inv_start fun h inv => inv_step sorts length h inv
  have sorted : ∀ i < nthr, (chunk tnum s.nums i).Pairwise (· ≤ ·) := by
    intro i hi
    have there : i < s.threads.length := by rwa [inv.created (.inr passed)]
    refine inv.sorted i _ (List.getElem?_eq_getElem there) ?_
    rw [inv.finished passed _ (List.getElem_mem there)]
    nofun
  obtain ⟨snums, run, perm, ordered⟩ := exists_merge (by rw [inv.same.length_eq, length])
    (fun b hb => small b (inv.same.mem_iff.mp hb)) sorted
  exact ⟨snums, run, perm.trans inv.same, ordered⟩

/-- A sorting function that keeps the promise. -/
private def insertionSort : Heapsort := fun compar base =>
  base.insertionSort (compar · · ≤ 0)

private theorem sorts_insertionSort : Sorts insertionSort := by
  intro compar compares base
  have : Std.Total (compar · · ≤ 0) := ⟨compares.total⟩
  have : IsTrans Int (compar · · ≤ 0) := ⟨compares.trans⟩
  exact ⟨List.perm_insertionSort _ base, List.pairwise_insertionSort _ base⟩

/-- Two threads with two numbers each. -/
theorem merge_sorts_two_threads
    : ∃ snums, merge 2 2 [1, 5, 4, 5] = some snums
      ∧ snums.Perm [5, 1, 5, 4] ∧ snums.Pairwise (· ≤ ·) :=
  merge_sorts sorts_insertionSort (show [5, 1, 5, 4].length = 2 * 2 from rfl) (by decide)
    (s := ⟨[1, 5, 4, 5], [⟨0, .waiting⟩, ⟨2, .waiting⟩], 3, .merge⟩)
    ⟨[.create false, .create false, .heapsort 1, .wait 1, .mainWait, .heapsort 0, .wait 0, .passed],
      rfl⟩ rfl

end Minions.Threads.Barrier
