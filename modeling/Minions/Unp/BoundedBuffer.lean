import Mathlib.Data.List.Basic
import Mathlib.Tactic.SplitIfs
import Minions.Unp.TwoThreads

/-! A producer and a consumer that share a buffer, with a mutex and two condition variables:
`threads/example03.c`. `NLOOP` and `BUFFSIZE` are parameters. A thread that `pthread_cond_wait`
puts to sleep can be woken without a signal.
-/

namespace Minions.Unp.BoundedBuffer

open Minions.Logic Minions.Unp.TwoThreads

/-- Where a thread is in its loop, and in `produce` or `consume`. -/
inductive Loc where
  /-- At the test of `produce_loop` or `consume_loop`. -/
  | loop (i : Nat)
  | lock (i : Nat)
  /-- At the test of the `while` loop. -/
  | check (i : Nat)
  /-- About to call `Pthread_cond_wait`. -/
  | sleep (i : Nat)
  /-- Until it has been woken and has the mutex again. -/
  | wait (i : Nat)
  | print (i val : Nat)
  /-- The access to `b_buf`. -/
  | copy (i : Nat)
  /-- At `b_nextput` or `b_nextget`. -/
  | next (i : Nat)
  /-- At `b_nitems`. -/
  | count (i : Nat)
  | signal (i : Nat)
  | unlock (i : Nat)
  | returned
deriving DecidableEq

/-- `buf_t` with the thread that has its mutex and the threads that sleep on its condition
variables, and the lines printed.
-/
structure Memory where
  b_buf : List Nat
  b_nitems : Int := 0
  b_nextget : Nat := 0
  b_nextput : Nat := 0
  b_mutex : Option Tid := none
  b_cond_consumer : List Tid := []
  b_cond_producer : List Tid := []
  printed : List (Tid × Nat) := []

variable (buffsize nloop : Nat)

def buf_t : Memory where
  b_buf := List.replicate buffsize 0

/-- One step of `produce_loop` and `produce`, whose `val` is `i`. -/
def produceStep (m : Memory) : Loc → Option (Memory × Loc)
  | .loop i => some (m, if i < nloop then .lock i else .returned)
  | .lock i => if m.b_mutex = none then some ({ m with b_mutex := some .tidA }, .check i) else none
  | .check i => some (m, if buffsize ≤ m.b_nitems then .sleep i else .print i i)
  | .sleep i =>
      some ({ m with b_mutex := none, b_cond_producer := m.b_cond_producer ++ [.tidA] }, .wait i)
  | .wait i =>
      if .tidA ∉ m.b_cond_producer ∧ m.b_mutex = none then
        some ({ m with b_mutex := some .tidA }, .check i)
      else
        none
  | .print i val => some ({ m with printed := m.printed ++ [(.tidA, val)] }, .copy i)
  | .copy i => some ({ m with b_buf := m.b_buf.set m.b_nextput i }, .next i)
  | .next i =>
      some ({ m with b_nextput := if buffsize ≤ m.b_nextput + 1 then 0 else m.b_nextput + 1 },
        .count i)
  | .count i => some ({ m with b_nitems := m.b_nitems + 1 }, .signal i)
  | .signal i => some ({ m with b_cond_consumer := m.b_cond_consumer.tail }, .unlock i)
  | .unlock i => some ({ m with b_mutex := none }, .loop (i + 1))
  | .returned => none

/-- One step of `consume_loop` and `consume`. -/
def consumeStep (m : Memory) : Loc → Option (Memory × Loc)
  | .loop i => some (m, if i < nloop then .lock i else .returned)
  | .lock i => if m.b_mutex = none then some ({ m with b_mutex := some .tidB }, .check i) else none
  | .check i => some (m, if m.b_nitems ≤ 0 then .sleep i else .copy i)
  | .sleep i =>
      some ({ m with b_mutex := none, b_cond_consumer := m.b_cond_consumer ++ [.tidB] }, .wait i)
  | .wait i =>
      if .tidB ∉ m.b_cond_consumer ∧ m.b_mutex = none then
        some ({ m with b_mutex := some .tidB }, .check i)
      else
        none
  | .copy i => (m.b_buf[m.b_nextget]?).map fun val => (m, .print i val)
  | .print i val => some ({ m with printed := m.printed ++ [(.tidB, val)] }, .next i)
  | .next i =>
      some ({ m with b_nextget := if buffsize ≤ m.b_nextget + 1 then 0 else m.b_nextget + 1 },
        .count i)
  | .count i => some ({ m with b_nitems := m.b_nitems - 1 }, .signal i)
  | .signal i => some ({ m with b_cond_producer := m.b_cond_producer.tail }, .unlock i)
  | .unlock i => some ({ m with b_mutex := none }, .loop (i + 1))
  | .returned => none

/-- One step of either thread. -/
def loopStep : Tid → Memory → Loc → Option (Memory × Loc)
  | .tidA => produceStep buffsize nloop
  | .tidB => consumeStep buffsize nloop

/-- A thread that sleeps wakes up. -/
def wakeUp (t : Tid) (m : Memory) : Option Memory :=
  if t ∈ m.b_cond_producer ∨ t ∈ m.b_cond_consumer then
    some { m with
      b_cond_producer := m.b_cond_producer.filter (· ≠ t)
      b_cond_consumer := m.b_cond_consumer.filter (· ≠ t) }
  else
    none

def loops : Code Memory Loc where
  start := .loop 0
  returned := .returned
  perform := loopStep buffsize nloop
  wake := wakeUp
  ends t _ := by cases t <;> rfl

variable {buffsize nloop} {m : Memory} {a b : Option Loc}

/-- The number of rounds that a thread has finished. -/
def index (nloop : Nat) : Option Loc → Nat
  | some (.loop i) => i
  | some (.lock i) => i
  | some (.check i) => i
  | some (.sleep i) => i
  | some (.wait i) => i
  | some (.print i _) => i
  | some (.copy i) => i
  | some (.next i) => i
  | some (.count i) => i
  | some (.signal i) => i
  | some (.unlock i) => i
  | some .returned => nloop
  | none => 0

/-- The number of items that a thread has counted. -/
def counted (nloop : Nat) : Option Loc → Nat
  | some (.signal i) => i + 1
  | some (.unlock i) => i + 1
  | loc => index nloop loc

/-- The number of times that a thread has gone on to the next place in the buffer. -/
def advanced (nloop : Nat) : Option Loc → Nat
  | some (.count i) => i + 1
  | loc => counted nloop loc

/-- The number of items that a thread has both copied and printed. -/
def moved (nloop : Nat) : Option Loc → Nat
  | some (.next i) => i + 1
  | loc => advanced nloop loc

/-- The number of items that the producer has printed. -/
def announced (nloop : Nat) : Option Loc → Nat
  | some (.copy i) => i + 1
  | loc => moved nloop loc

/-- Whether a thread has the mutex. -/
def Holds : Option Loc → Prop
  | some (.loop _) => False
  | some (.lock _) => False
  | some (.wait _) => False
  | some .returned => False
  | none => False
  | _ => True

/-- What the producer knows of the number of items, where it is. -/
def ProducerKnows (buffsize nloop : Nat) (nitems : Int) : Option Loc → Prop
  | some (.loop i) => i ≤ nloop
  | some (.lock i) => i < nloop
  | some (.check i) => i < nloop
  | some (.sleep i) => i < nloop ∧ buffsize ≤ nitems
  | some (.wait i) => i < nloop
  | some (.print i val) => i < nloop ∧ nitems < buffsize ∧ val = i
  | some (.copy i) => i < nloop ∧ nitems < buffsize
  | some (.next i) => i < nloop ∧ nitems < buffsize
  | some (.count i) => i < nloop ∧ nitems < buffsize
  | some (.signal i) => i < nloop ∧ 0 < nitems
  | some (.unlock i) => i < nloop
  | some .returned => True
  | none => True

/-- What the consumer knows of the number of items, where it is. -/
def ConsumerKnows (buffsize nloop : Nat) (nitems : Int) : Option Loc → Prop
  | some (.loop i) => i ≤ nloop
  | some (.lock i) => i < nloop
  | some (.check i) => i < nloop
  | some (.sleep i) => i < nloop ∧ nitems ≤ 0
  | some (.wait i) => i < nloop
  | some (.copy i) => i < nloop ∧ 0 < nitems
  | some (.print i val) => i < nloop ∧ 0 < nitems ∧ val = i
  | some (.next i) => i < nloop ∧ 0 < nitems
  | some (.count i) => i < nloop ∧ 0 < nitems
  | some (.signal i) => i < nloop ∧ nitems < buffsize
  | some (.unlock i) => i < nloop
  | some .returned => True
  | none => True

def Waits : Option Loc → Prop
  | some (.wait _) => True
  | _ => False

def Signals : Option Loc → Prop
  | some (.signal _) => True
  | _ => False

/-- A thread that is in the queue of a condition variable is alone there, and it still has to
sleep, or the other thread is about to signal it.
-/
def Sleeps (queue : List Tid) (t : Tid) (loc other : Option Loc) (must : Prop) : Prop :=
  queue = [] ∨ queue = [t] ∧ Waits loc ∧ (must ∨ Signals other)

/-- The values that thread `t` has printed. -/
def Memory.printedBy (m : Memory) (t : Tid) : List Nat :=
  (m.printed.filter fun line => line.1 = t).map Prod.snd

/-- What holds of the buffer, with the producer at `a` and the consumer at `b`. -/
structure Inv (buffsize nloop : Nat) (m : Memory) (a b : Option Loc) : Prop where
  mutexA : Holds a ↔ m.b_mutex = some .tidA
  mutexB : Holds b ↔ m.b_mutex = some .tidB
  knowsA : ProducerKnows buffsize nloop m.b_nitems a
  knowsB : ConsumerKnows buffsize nloop m.b_nitems b
  nitems : m.b_nitems = (counted nloop a : Int) - counted nloop b
  least : 0 ≤ m.b_nitems
  most : m.b_nitems ≤ buffsize
  length : m.b_buf.length = buffsize
  nextput : m.b_nextput = advanced nloop a % buffsize
  nextget : m.b_nextget = advanced nloop b % buffsize
  slots : ∀ k, counted nloop b ≤ k → k < moved nloop a → m.b_buf[k % buffsize]? = some k
  produced : m.printedBy .tidA = List.range (announced nloop a)
  consumed : m.printedBy .tidB = List.range (moved nloop b)
  sleepsA : Sleeps m.b_cond_producer .tidA a b (buffsize ≤ m.b_nitems)
  sleepsB : Sleeps m.b_cond_consumer .tidB b a (m.b_nitems ≤ 0)

/-- The invariant holds at the start. -/
theorem start_inv : Inv buffsize nloop (buf_t buffsize) none none where
  mutexA := by simp [Holds, buf_t]
  mutexB := by simp [Holds, buf_t]
  knowsA := trivial
  knowsB := trivial
  nitems := rfl
  least := Int.le_refl 0
  most := Int.natCast_nonneg buffsize
  length := List.length_replicate
  nextput := (Nat.zero_mod buffsize).symm
  nextget := (Nat.zero_mod buffsize).symm
  slots k _ less := absurd less (Nat.not_lt_zero k)
  produced := rfl
  consumed := rfl
  sleepsA := .inl rfl
  sleepsB := .inl rfl

/-- What the consumer knows without the mutex is not about the number of items. -/
theorem consumerKnows_of_not_holds {nitems : Int} {loc : Option Loc} (free : ¬ Holds loc)
    (knows : ConsumerKnows buffsize nloop nitems loc) (nitems' : Int)
    : ConsumerKnows buffsize nloop nitems' loc := by
  rcases loc with _ | loc
  · trivial
  · cases loc <;> simp_all [Holds, ConsumerKnows]

/-- Without the mutex the producer knows nothing of the count. -/
theorem producerKnows_of_not_holds {nitems : Int} {loc : Option Loc} (free : ¬ Holds loc)
    (knows : ProducerKnows buffsize nloop nitems loc) (nitems' : Int)
    : ProducerKnows buffsize nloop nitems' loc := by
  rcases loc with _ | loc
  · trivial
  · cases loc <;> simp_all [Holds, ProducerKnows]

/-- A thread without the mutex has counted what it has moved and printed. -/
theorem counts_of_not_holds {loc : Option Loc} (free : ¬ Holds loc)
    : advanced nloop loc = counted nloop loc ∧ moved nloop loc = counted nloop loc
      ∧ announced nloop loc = counted nloop loc := by
  rcases loc with _ | loc
  · exact ⟨rfl, rfl, rfl⟩
  · cases loc <;> simp_all [Holds, advanced, moved, announced]

/-- The next place in the buffer. -/
theorem next_place {n place : Nat} (room : 0 < buffsize) (here : place = n % buffsize)
    : (if buffsize ≤ place + 1 then 0 else place + 1) = (n + 1) % buffsize := by
  have less := Nat.mod_lt n room
  rw [← Nat.mod_add_mod, ← here]
  rw [← here] at less
  by_cases last : buffsize ≤ place + 1
  · have full : place + 1 = buffsize := by omega
    rw [if_pos last, full, Nat.mod_self]
  · rw [if_neg last, Nat.mod_eq_of_lt (by omega)]

/-- Two of fewer than `buffsize` successive items are not in the same place. -/
theorem place_ne {k n : Nat} (less : k < n) (near : n - k < buffsize)
    : n % buffsize ≠ k % buffsize := by
  intro same
  have zero := Nat.sub_mod_eq_zero_of_mod_eq same
  rw [Nat.mod_eq_of_lt near] at zero
  omega

/-- The values that one thread has printed, after one more. -/
theorem printedBy_append (m : Memory) (t : Tid) (val : Nat) (u : Tid)
    : { m with printed := m.printed ++ [(t, val)] }.printedBy u
      = m.printedBy u ++ if t = u then [val] else [] := by
  by_cases same : t = u <;> simp [Memory.printedBy, same]

/-- No thread sleeps if this one does not. -/
theorem Sleeps.empty {queue : List Tid} {t : Tid} {loc other : Option Loc} {must : Prop}
    (sleeps : Sleeps queue t loc other must) (awake : ¬ Waits loc ∨ t ∉ queue)
    : queue = [] := by
  rcases sleeps with empty | ⟨alone, waits, _⟩
  · exact empty
  · rcases awake with awake | absent
    · exact absurd waits awake
    · simp [alone] at absent

/-- What one thread sleeps for may change while the other is about to signal. -/
theorem Sleeps.signals {queue : List Tid} {t : Tid} {loc other other' : Option Loc}
    {must must' : Prop} (sleeps : Sleeps queue t loc other must) (signals : Signals other')
    : Sleeps queue t loc other' must' :=
  sleeps.imp_right fun waits => ⟨waits.1, waits.2.1, .inr signals⟩

/-- A signal wakes the only thread that can sleep. -/
theorem Sleeps.tail {queue : List Tid} {t : Tid} {loc other : Option Loc} {must : Prop}
    (sleeps : Sleeps queue t loc other must)
    : queue.tail = [] := by
  rcases sleeps with empty | ⟨alone, _⟩
  · rw [empty]
    rfl
  · rw [alone]
    rfl

/-- A thread that has the mutex gives it up. -/
theorem Inv.freeB (inv : Inv buffsize nloop m a b) (holds : Holds a) : ¬ Holds b := by
  rw [inv.mutexB, inv.mutexA.mp holds]
  simp

/-- The threads do not both hold the mutex. -/
theorem Inv.freeA (inv : Inv buffsize nloop m a b) (holds : Holds b) : ¬ Holds a := by
  rw [inv.mutexA, inv.mutexB.mp holds]
  simp

-----------------------------------------------------------------------------------------
-- The producer
-----------------------------------------------------------------------------------------

/-- A step of the producer keeps the invariant. -/
theorem produceStep_inv (room : 0 < buffsize) {loc : Loc} {next : Memory × Loc}
    (h : produceStep buffsize nloop m loc = some next) (inv : Inv buffsize nloop m (some loc) b)
    : Inv buffsize nloop next.1 (some next.2) b := by
  have knows := inv.knowsA
  cases loc with
  | loop i =>
      cases h
      by_cases more : i < nloop
      · rw [if_pos more]
        exact { inv with knowsA := more }
      · have last : i = nloop := by
          simp only [ProducerKnows] at knows
          omega
        subst last
        rw [if_neg more]
        exact { inv with knowsA := trivial }
  | lock i =>
      simp only [produceStep, Option.ite_none_right_eq_some] at h
      obtain ⟨free, h⟩ := h
      cases h
      have freeB := inv.mutexB
      simp only [free, reduceCtorEq, iff_false] at freeB
      exact { inv with
        mutexA := by simp [Holds]
        mutexB := by simp [freeB] }
  | check i =>
      cases h
      by_cases full : buffsize ≤ m.b_nitems
      · rw [if_pos full]
        exact { inv with knowsA := ⟨knows, full⟩ }
      · rw [if_neg full]
        exact { inv with knowsA := ⟨knows, Int.not_le.mp full, rfl⟩ }
  | sleep i =>
      cases h
      have freeB := inv.freeB trivial
      exact { inv with
        mutexA := by simp [Holds]
        mutexB := by simp [freeB]
        knowsA := knows.1
        sleepsA := .inr ⟨by simp [inv.sleepsA.empty (.inl id)], trivial, .inl knows.2⟩ }
  | wait i =>
      simp only [produceStep, Option.ite_none_right_eq_some] at h
      obtain ⟨⟨awake, free⟩, h⟩ := h
      cases h
      have freeB := inv.mutexB
      simp only [free, reduceCtorEq, iff_false] at freeB
      exact { inv with
        mutexA := by simp [Holds]
        mutexB := by simp [freeB]
        sleepsA := .inl (inv.sleepsA.empty (.inr awake)) }
  | print i val =>
      cases h
      obtain ⟨more, less, rfl⟩ := knows
      exact { inv with
        knowsA := ⟨more, less⟩
        produced := by
          rw [printedBy_append, inv.produced, if_pos rfl]
          exact List.range_succ.symm
        consumed := by
          rw [printedBy_append, inv.consumed, if_neg (by simp), List.append_nil] }
  | copy i =>
      cases h
      have nitems : m.b_nitems = (i : Int) - counted nloop b := inv.nitems
      have least := inv.least
      have put : m.b_nextput = i % buffsize := inv.nextput
      exact { inv with
        knowsA := knows
        length := by rw [List.length_set, inv.length]
        slots := by
          intro k from_ upto
          dsimp only
          rw [put]
          rcases Nat.lt_succ_iff_lt_or_eq.mp upto with less | rfl
          · rw [List.getElem?_set_ne (place_ne less (by have := knows.2; omega))]
            exact inv.slots k from_ less
          · rw [List.getElem?_set_self]
            rw [inv.length]
            exact Nat.mod_lt k room }
  | next i =>
      cases h
      exact { inv with
        knowsA := knows
        nextput := next_place room inv.nextput }
  | count i =>
      cases h
      have freeB := inv.freeB trivial
      have nitems : m.b_nitems = (i : Int) - counted nloop b := inv.nitems
      have least := inv.least
      exact { inv with
        knowsA := ⟨knows.1, by dsimp only; omega⟩
        knowsB := consumerKnows_of_not_holds freeB inv.knowsB _
        nitems := by
          show m.b_nitems + 1 = (i + 1 : Nat) - counted nloop b
          omega
        least := by dsimp only; omega
        most := by have := knows.2; dsimp only; omega
        sleepsA := .inl (inv.sleepsA.empty (.inl id))
        sleepsB := inv.sleepsB.signals trivial }
  | signal i =>
      cases h
      exact { inv with
        knowsA := knows.1
        sleepsB := .inl inv.sleepsB.tail }
  | unlock i =>
      cases h
      have freeB := inv.freeB trivial
      exact { inv with
        mutexA := by simp [Holds]
        mutexB := by simp [freeB]
        knowsA := knows }
  | returned => cases h

-----------------------------------------------------------------------------------------
-- The consumer
-----------------------------------------------------------------------------------------

/-- A step of the consumer keeps the invariant. -/
theorem consumeStep_inv (room : 0 < buffsize) {loc : Loc} {next : Memory × Loc}
    (h : consumeStep buffsize nloop m loc = some next) (inv : Inv buffsize nloop m a (some loc))
    : Inv buffsize nloop next.1 a (some next.2) := by
  have knows := inv.knowsB
  cases loc with
  | loop i =>
      cases h
      by_cases more : i < nloop
      · rw [if_pos more]
        exact { inv with knowsB := more }
      · have last : i = nloop := by
          simp only [ConsumerKnows] at knows
          omega
        subst last
        rw [if_neg more]
        exact { inv with knowsB := trivial }
  | lock i =>
      simp only [consumeStep, Option.ite_none_right_eq_some] at h
      obtain ⟨free, h⟩ := h
      cases h
      have freeA := inv.mutexA
      simp only [free, reduceCtorEq, iff_false] at freeA
      exact { inv with
        mutexA := by simp [freeA]
        mutexB := by simp [Holds] }
  | check i =>
      cases h
      by_cases empty : m.b_nitems ≤ 0
      · rw [if_pos empty]
        exact { inv with knowsB := ⟨knows, empty⟩ }
      · rw [if_neg empty]
        exact { inv with knowsB := ⟨knows, Int.not_le.mp empty⟩ }
  | sleep i =>
      cases h
      have freeA := inv.freeA trivial
      exact { inv with
        mutexA := by simp [freeA]
        mutexB := by simp [Holds]
        knowsB := knows.1
        sleepsB := .inr ⟨by simp [inv.sleepsB.empty (.inl id)], trivial, .inl knows.2⟩ }
  | wait i =>
      simp only [consumeStep, Option.ite_none_right_eq_some] at h
      obtain ⟨⟨awake, free⟩, h⟩ := h
      cases h
      have freeA := inv.mutexA
      simp only [free, reduceCtorEq, iff_false] at freeA
      exact { inv with
        mutexA := by simp [freeA]
        mutexB := by simp [Holds]
        sleepsB := .inl (inv.sleepsB.empty (.inr awake)) }
  | copy i =>
      have nitems : m.b_nitems = (counted nloop a : Int) - i := inv.nitems
      have get : m.b_nextget = i % buffsize := inv.nextget
      have moves : moved nloop a = _ := (counts_of_not_holds (inv.freeA trivial)).2.1
      have slot := inv.slots i (Nat.le_refl i) (by have := knows.2; omega)
      simp only [consumeStep, get, slot, Option.map_some, Option.some.injEq] at h
      cases h
      exact { inv with knowsB := ⟨knows.1, knows.2, rfl⟩ }
  | print i val =>
      cases h
      obtain ⟨more, less, rfl⟩ := knows
      exact { inv with
        knowsB := ⟨more, less⟩
        produced := by
          rw [printedBy_append, inv.produced, if_neg (by simp), List.append_nil]
        consumed := by
          rw [printedBy_append, inv.consumed, if_pos rfl]
          exact List.range_succ.symm }
  | next i =>
      cases h
      exact { inv with
        knowsB := knows
        nextget := next_place room inv.nextget }
  | count i =>
      cases h
      have freeA := inv.freeA trivial
      have nitems : m.b_nitems = (counted nloop a : Int) - i := inv.nitems
      have most := inv.most
      exact { inv with
        knowsB := ⟨knows.1, by dsimp only; omega⟩
        knowsA := producerKnows_of_not_holds freeA inv.knowsA _
        nitems := by
          show m.b_nitems - 1 = counted nloop a - (i + 1 : Nat)
          omega
        most := by dsimp only; omega
        least := by have := knows.2; dsimp only; omega
        slots := fun k from_ upto => inv.slots k (Nat.le_of_succ_le from_) upto
        sleepsA := inv.sleepsA.signals trivial
        sleepsB := .inl (inv.sleepsB.empty (.inl id)) }
  | signal i =>
      cases h
      exact { inv with
        knowsB := knows.1
        sleepsA := .inl inv.sleepsA.tail }
  | unlock i =>
      cases h
      have freeA := inv.freeA trivial
      exact { inv with
        mutexA := by simp [freeA]
        mutexB := by simp [Holds]
        knowsB := knows }
  | returned => cases h

-----------------------------------------------------------------------------------------
-- Whole runs
-----------------------------------------------------------------------------------------

/-- A thread that is woken has left the queue, and the other queue is as before. -/
theorem Sleeps.filter {queue : List Tid} {t : Tid} {loc other : Option Loc} {must : Prop}
    (sleeps : Sleeps queue t loc other must) (u : Tid)
    : Sleeps (queue.filter (· ≠ u)) t loc other must := by
  rcases sleeps with empty | ⟨alone, rest⟩
  · exact .inl (by rw [empty, List.filter_nil])
  · by_cases same : t = u
    · exact .inl (by simp [alone, same])
    · exact .inr ⟨by simp [alone, same], rest⟩

/-- A wakeup keeps the invariant. -/
theorem wakeUp_inv {t : Tid} {m' : Memory} (h : wakeUp t m = some m')
    (inv : Inv buffsize nloop m a b)
    : Inv buffsize nloop m' a b := by
  simp only [wakeUp, Option.ite_none_right_eq_some] at h
  obtain ⟨_, h⟩ := h
  cases h
  exact { inv with
    sleepsA := inv.sleepsA.filter t
    sleepsB := inv.sleepsB.filter t }

/-- Every event keeps the invariant. -/
theorem kept_inv (room : 0 < buffsize)
    : Kept (loops buffsize nloop)
        fun m place => Inv buffsize nloop m (place .tidA) (place .tidB) where
  created {m place} t new inv := by
    cases t with
    | tidA =>
        rw [new] at inv
        simp only [Function.update_self, ne_eq, reduceCtorEq, not_false_eq_true,
          Function.update_of_ne]
        exact { inv with knowsA := Nat.zero_le nloop }
    | tidB =>
        rw [new] at inv
        simp only [Function.update_self, ne_eq, reduceCtorEq, not_false_eq_true,
          Function.update_of_ne]
        exact { inv with knowsB := Nat.zero_le nloop }
  performed {m place} t {loc next} here h inv := by
    cases t with
    | tidA =>
        rw [here] at inv
        simpa using produceStep_inv room h inv
    | tidB =>
        rw [here] at inv
        simpa using consumeStep_inv room h inv
  woken t _ h inv := wakeUp_inv h inv

/-- How far a thread has come. In each round it sleeps once at most without a wakeup that nobody
asked for: one that has been signalled finds that it is `ready`.
-/
def rank (nloop : Nat) (t : Tid) (ready : Prop) [Decidable ready] (queue : List Tid)
    : Option Loc → Nat
  | some (.loop i) => 13 * i
  | some (.lock i) => 13 * i + 1
  | some (.check i) => 13 * i + if ready then 6 else 2
  | some (.sleep i) => 13 * i + 3
  | some (.wait i) => 13 * i + if t ∈ queue then 4 else if ready then 5 else 1
  | some (.print i _) => 13 * i + if t = .tidA then 7 else 8
  | some (.copy i) => 13 * i + if t = .tidA then 8 else 7
  | some (.next i) => 13 * i + 9
  | some (.count i) => 13 * i + 10
  | some (.signal i) => 13 * i + 11
  | some (.unlock i) => 13 * i + 12
  | some .returned => 13 * nloop + 1
  | none => 0

section Rank

variable {t : Tid} {ready ready' : Prop} [Decidable ready] [Decidable ready']
  {queue queue' : List Tid}

/-- A thread is not set back by what the other does: that one makes it ready before it signals. -/
theorem rank_le (loc : Option Loc) (still : ready → ready') (same : t ∈ queue' → t ∈ queue)
    (signalled : t ∈ queue → t ∈ queue' ∨ ready')
    : rank nloop t ready queue loc ≤ rank nloop t ready' queue' loc := by
  rcases loc with _ | loc
  · exact Nat.le_refl _
  · cases loc with
    | check i =>
        simp only [rank]
        split <;> split <;> simp_all
    | wait i =>
        simp only [rank]
        by_cases sleeps : t ∈ queue
        · rcases signalled sleeps with asleep | ready'
          · simp [sleeps, asleep]
          · by_cases asleep : t ∈ queue' <;> simp [sleeps, asleep, ready']
        · have awake : t ∉ queue' := fun asleep => sleeps (same asleep)
          rw [if_neg sleeps, if_neg awake]
          split <;> split <;> simp_all
    | _ => exact Nat.le_refl _

/-- A wakeup sets a thread back to the test of its `while` loop. -/
theorem rank_woken (loc : Option Loc)
    : rank nloop t ready queue loc ≤ rank nloop t ready queue' loc + 3 := by
  rcases loc with _ | loc
  · exact Nat.le_add_right _ _
  · cases loc with
    | wait i =>
        simp only [rank]
        split_ifs <;> omega
    | _ => exact Nat.le_add_right _ _

end Rank

/-- How far the producer at `a` and the consumer at `b` have come. -/
def rankA (buffsize nloop : Nat) (m : Memory) (a : Option Loc) : Nat :=
  rank nloop .tidA (m.b_nitems < buffsize) m.b_cond_producer a

def rankB (nloop : Nat) (m : Memory) (b : Option Loc) : Nat :=
  rank nloop .tidB (0 < m.b_nitems) m.b_cond_consumer b

/-- A step of the producer raises its rank. -/
theorem produceStep_rankA {loc : Loc} {next : Memory × Loc}
    (h : produceStep buffsize nloop m loc = some next) (inv : Inv buffsize nloop m (some loc) b)
    : rankA buffsize nloop m (some loc) + 1 ≤ rankA buffsize nloop next.1 (some next.2) := by
  have knows := inv.knowsA
  cases loc with
  | loop i =>
      cases h
      simp only [ProducerKnows] at knows
      by_cases more : i < nloop
      · simp [rankA, rank, more]
      · simp only [rankA, rank, if_neg more]
        omega
  | lock i =>
      simp only [produceStep, Option.ite_none_right_eq_some] at h
      obtain ⟨_, h⟩ := h
      cases h
      simp only [rankA, rank]
      split <;> omega
  | check i =>
      cases h
      by_cases full : buffsize ≤ m.b_nitems
      · simp [rankA, rank, full, Int.not_lt.mpr full]
      · simp [rankA, rank, full, Int.not_le.mp full]
  | sleep i =>
      cases h
      simp [rankA, rank]
  | wait i =>
      simp only [produceStep, Option.ite_none_right_eq_some] at h
      obtain ⟨⟨awake, _⟩, h⟩ := h
      cases h
      simp only [rankA, rank, if_neg awake]
      split <;> omega
  | returned => cases h
  | print i val | copy i | next i | count i | signal i | unlock i =>
      cases h
      simp only [rankA, rank, if_true]
      omega

/-- A step of the consumer raises its rank. -/
theorem consumeStep_rankB {loc : Loc} {next : Memory × Loc}
    (h : consumeStep buffsize nloop m loc = some next) (inv : Inv buffsize nloop m a (some loc))
    : rankB nloop m (some loc) + 1 ≤ rankB nloop next.1 (some next.2) := by
  have knows := inv.knowsB
  cases loc with
  | loop i =>
      cases h
      simp only [ConsumerKnows] at knows
      by_cases more : i < nloop
      · simp [rankB, rank, more]
      · simp only [rankB, rank, if_neg more]
        omega
  | lock i =>
      simp only [consumeStep, Option.ite_none_right_eq_some] at h
      obtain ⟨_, h⟩ := h
      cases h
      simp only [rankB, rank]
      split <;> omega
  | check i =>
      cases h
      by_cases empty : m.b_nitems ≤ 0
      · simp [rankB, rank, empty, Int.not_lt.mpr empty]
      · simp [rankB, rank, empty, Int.not_le.mp empty]
  | sleep i =>
      cases h
      simp [rankB, rank]
  | wait i =>
      simp only [consumeStep, Option.ite_none_right_eq_some] at h
      obtain ⟨⟨awake, _⟩, h⟩ := h
      cases h
      simp only [rankB, rank, if_neg awake]
      split <;> omega
  | copy i =>
      obtain ⟨val, _, rfl⟩ := Option.map_eq_some_iff.mp h
      simp [rankB, rank]
  | returned => cases h
  | print i val | next i | count i | signal i | unlock i =>
      cases h
      simp only [rankB, rank, reduceCtorEq, if_false]
      omega

/-- What the producer does brings the consumer nearer to the end, or leaves it where it is. -/
theorem produceStep_rankB {loc : Loc} {next : Memory × Loc}
    (h : produceStep buffsize nloop m loc = some next) (inv : Inv buffsize nloop m (some loc) b)
    : rankB nloop m b ≤ rankB nloop next.1 b := by
  cases loc with
  | lock i | wait i =>
      simp only [produceStep, Option.ite_none_right_eq_some] at h
      obtain ⟨_, h⟩ := h
      cases h
      exact Nat.le_refl _
  | count i =>
      cases h
      exact rank_le b (fun ready => by dsimp only; omega) id .inl
  | signal i =>
      cases h
      have gone := inv.sleepsB.tail
      exact rank_le b id (fun sleeps => by simp [gone] at sleeps) fun _ => .inr inv.knowsA.2
  | returned => cases h
  | loop i | check i | sleep i | print i val | copy i | next i | unlock i =>
      cases h
      exact Nat.le_refl _

/-- What the consumer does brings the producer nearer to the end, or leaves it where it is. -/
theorem consumeStep_rankA {loc : Loc} {next : Memory × Loc}
    (h : consumeStep buffsize nloop m loc = some next) (inv : Inv buffsize nloop m a (some loc))
    : rankA buffsize nloop m a ≤ rankA buffsize nloop next.1 a := by
  cases loc with
  | lock i | wait i =>
      simp only [consumeStep, Option.ite_none_right_eq_some] at h
      obtain ⟨_, h⟩ := h
      cases h
      exact Nat.le_refl _
  | copy i =>
      obtain ⟨val, _, rfl⟩ := Option.map_eq_some_iff.mp h
      exact Nat.le_refl _
  | count i =>
      cases h
      exact rank_le a (fun ready => by dsimp only; omega) id .inl
  | signal i =>
      cases h
      have gone := inv.sleepsA.tail
      exact rank_le a id (fun sleeps => by simp [gone] at sleeps) fun _ => .inr inv.knowsB.2
  | returned => cases h
  | loop i | check i | sleep i | print i val | next i | unlock i =>
      cases h
      exact Nat.le_refl _

/-- A wakeup that nobody asked for sets one thread back, by 3 at most. -/
theorem wakeUp_rank {t : Tid} {m' : Memory} (h : wakeUp t m = some m') (a b : Option Loc)
    : rankA buffsize nloop m a + rankB nloop m b
      ≤ rankA buffsize nloop m' a + rankB nloop m' b + 3 := by
  simp only [wakeUp, Option.ite_none_right_eq_some] at h
  obtain ⟨_, h⟩ := h
  cases h
  cases t with
  | tidA =>
      have woken := @rank_woken nloop .tidA (m.b_nitems < buffsize) _ m.b_cond_producer
        (m.b_cond_producer.filter (· ≠ .tidA)) a
      have same := @rank_le nloop .tidB (0 < m.b_nitems) _ _ _ m.b_cond_consumer
        (m.b_cond_consumer.filter (· ≠ .tidA)) b id List.mem_of_mem_filter
        fun sleeps => .inl (List.mem_filter.mpr ⟨sleeps, by decide⟩)
      simp only [rankA, rankB]
      omega
  | tidB =>
      have woken := @rank_woken nloop .tidB (0 < m.b_nitems) _ m.b_cond_consumer
        (m.b_cond_consumer.filter (· ≠ .tidB)) b
      have same := @rank_le nloop .tidA (m.b_nitems < buffsize) _ _ _ m.b_cond_producer
        (m.b_cond_producer.filter (· ≠ .tidB)) a id List.mem_of_mem_filter
        fun sleeps => .inl (List.mem_filter.mpr ⟨sleeps, by decide⟩)
      simp only [rankA, rankB]
      omega

/-- Every step goes forward. -/
theorem forward_rank
    : Forward (loops buffsize nloop)
        (fun m place => Inv buffsize nloop m (place .tidA) (place .tidB))
        (fun m place => rankA buffsize nloop m (place .tidA) + rankB nloop m (place .tidB)) 4 where
  created {m place} t new _ := by
    cases t <;> simp [rankA, rankB, new, rank, loops]
  performed {m place} t {loc next} here h inv := by
    cases t with
    | tidA =>
        rw [here] at inv
        have producer := produceStep_rankA h inv
        have consumer := produceStep_rankB h inv
        simp only [here, Function.update_self, ne_eq, reduceCtorEq, not_false_eq_true,
          Function.update_of_ne]
        omega
    | tidB =>
        rw [here] at inv
        have consumer := consumeStep_rankB h inv
        have producer := consumeStep_rankA h inv
        simp only [here, Function.update_self, ne_eq, reduceCtorEq, not_false_eq_true,
          Function.update_of_ne]
        omega
  woken {m place} t {m'} h _ := by
    have := @wakeUp_rank buffsize nloop m t m' h (place .tidA) (place .tidB)
    omega

/-- The steps of a whole thread. -/
theorem rank_most {t : Tid} {ready : Prop} [Decidable ready] {queue : List Tid} {loc : Option Loc}
    {nitems : Int}
    (knows : ProducerKnows buffsize nloop nitems loc ∨ ConsumerKnows buffsize nloop nitems loc)
    : rank nloop t ready queue loc ≤ 13 * nloop + 1 := by
  rcases loc with _ | loc
  · exact Nat.zero_le _
  · cases loc with
    | check i | wait i | print i val | copy i =>
        simp only [ProducerKnows, ConsumerKnows] at knows
        simp only [rank]
        split_ifs <;> omega
    | _ =>
        simp only [ProducerKnows, ConsumerKnows] at knows
        simp only [rank]
        omega

/-- The producer prints an item that there is room for. -/
theorem announced_eq {nitems : Int} {loc : Option Loc}
    (knows : ProducerKnows buffsize nloop nitems loc)
    : announced nloop loc = counted nloop loc
      ∨ announced nloop loc = counted nloop loc + 1 ∧ nitems < buffsize := by
  rcases loc with _ | loc
  · exact .inl rfl
  · cases loc <;> simp_all [ProducerKnows, announced, moved, advanced, counted, index]

/-- The consumer prints an item that is there. -/
theorem moved_eq {nitems : Int} {loc : Option Loc}
    (knows : ConsumerKnows buffsize nloop nitems loc)
    : moved nloop loc = counted nloop loc
      ∨ moved nloop loc = counted nloop loc + 1 ∧ 0 < nitems := by
  rcases loc with _ | loc
  · exact .inl rfl
  · cases loc <;> simp_all [ConsumerKnows, moved, advanced, counted, index]

/-- A thread that has not returned can take a step where the mutex is free or its own, unless it
sleeps.
-/
theorem produceStep_isSome {loc : Loc} (going : loc ≠ .returned)
    (mutex : m.b_mutex = none ∨ Holds (some loc))
    (awake : Waits (some loc) → .tidA ∉ m.b_cond_producer)
    : (produceStep buffsize nloop m loc).isSome := by
  cases loc with
  | lock i =>
      rcases mutex with free | holds
      · simp [produceStep, free]
      · exact absurd holds id
  | wait i =>
      rcases mutex with free | holds
      · simp [produceStep, free, awake trivial]
      · exact absurd holds id
  | returned => exact absurd rfl going
  | _ => rfl

/-- The consumer can step unless it waits. -/
theorem consumeStep_isSome {loc : Loc} (going : loc ≠ .returned)
    (mutex : m.b_mutex = none ∨ Holds (some loc))
    (awake : Waits (some loc) → .tidB ∉ m.b_cond_consumer) (place : m.b_nextget < m.b_buf.length)
    : (consumeStep buffsize nloop m loc).isSome := by
  cases loc with
  | lock i =>
      rcases mutex with free | holds
      · simp [consumeStep, free]
      · exact absurd holds id
  | wait i =>
      rcases mutex with free | holds
      · simp [consumeStep, free, awake trivial]
      · exact absurd holds id
  | copy i => simp [consumeStep, place]
  | returned => exact absurd rfl going
  | _ => rfl

/-- A thread that cannot go on although the mutex is free has returned, or it sleeps. -/
def Blocked (t : Tid) (queue : List Tid) (loc : Loc) : Prop :=
  loc = .returned ∨ Waits (some loc) ∧ t ∈ queue

/-- Where the producer is blocked. -/
theorem producer_blocked {loc : Loc} (inv : Inv buffsize nloop m (some loc) b)
    (blocked : Blocked .tidA m.b_cond_producer loc) (quiet : ¬ Signals b)
    : loc = .returned ∧ counted nloop (some loc) = nloop
      ∨ counted nloop (some loc) < nloop ∧ buffsize ≤ m.b_nitems := by
  have knows := inv.knowsA
  rcases blocked with rfl | ⟨waits, sleeps⟩
  · exact .inl ⟨rfl, rfl⟩
  · cases loc <;> simp only [Waits] at waits
    rcases inv.sleepsA with empty | ⟨_, _, full | signals⟩
    · simp [empty] at sleeps
    · exact .inr ⟨knows, full⟩
    · exact absurd signals quiet

/-- Where the consumer is blocked. -/
theorem consumer_blocked {loc : Loc} (inv : Inv buffsize nloop m a (some loc))
    (blocked : Blocked .tidB m.b_cond_consumer loc) (quiet : ¬ Signals a)
    : loc = .returned ∧ counted nloop (some loc) = nloop
      ∨ counted nloop (some loc) < nloop ∧ m.b_nitems ≤ 0 := by
  have knows := inv.knowsB
  rcases blocked with rfl | ⟨waits, sleeps⟩
  · exact .inl ⟨rfl, rfl⟩
  · cases loc <;> simp only [Waits] at waits
    rcases inv.sleepsB with empty | ⟨_, _, none | signals⟩
    · simp [empty] at sleeps
    · exact .inr ⟨knows, none⟩
    · exact absurd signals quiet

/-- A blocked thread is not about to signal. -/
theorem Blocked.quiet {t : Tid} {queue : List Tid} {loc : Loc} (blocked : Blocked t queue loc)
    : ¬ Signals (some loc) := by
  rcases blocked with rfl | ⟨waits, _⟩
  · exact id
  · cases loc <;> simp_all [Waits, Signals]

/-- Not both threads are blocked, unless both have returned: the buffer is not both full and empty.
-/
theorem not_both_blocked (room : 0 < buffsize) {locA locB : Loc}
    (inv : Inv buffsize nloop m (some locA) (some locB))
    (blockedA : Blocked .tidA m.b_cond_producer locA)
    (blockedB : Blocked .tidB m.b_cond_consumer locB)
    : locA = .returned ∧ locB = .returned := by
  have nitems := inv.nitems
  rcases producer_blocked inv blockedA blockedB.quiet with ⟨doneA, allA⟩ | ⟨moreA, full⟩ <;>
  rcases consumer_blocked inv blockedB blockedA.quiet with ⟨doneB, allB⟩ | ⟨moreB, empty⟩
  · exact ⟨doneA, doneB⟩
  · omega
  · omega
  · omega

/-- Unless the program has exited, something can happen that is not a wakeup. -/
theorem goes_on (room : 0 < buffsize) {s : State Memory Loc}
    (joins : Joins (loops buffsize nloop) s.main s.place)
    (inv : Inv buffsize nloop s.memory (s.place .tidA) (s.place .tidB)) (running : s.main ≠ .exited)
    : ∃ event : Event, event.isWake = false ∧ (step (loops buffsize nloop) s event).isSome := by
  cases stuck : s.stepMain (loops buffsize nloop) with
  | some s' => exact ⟨.main, rfl, by simp [step, stuck]⟩
  | none =>
      obtain ⟨exist, t, going⟩ := joins.waits running stuck
      obtain ⟨locA, hereA⟩ := Option.ne_none_iff_exists'.mp (exist .tidA)
      obtain ⟨locB, hereB⟩ := Option.ne_none_iff_exists'.mp (exist .tidB)
      rw [hereA, hereB] at inv
      have place : s.memory.b_nextget < s.memory.b_buf.length := by
        rw [inv.nextget, inv.length]
        exact Nat.mod_lt _ room
      have goesA : locA ≠ .returned → s.memory.b_mutex = none ∨ Holds (some locA)
          → (Waits (some locA) → .tidA ∉ s.memory.b_cond_producer)
          → (step (loops buffsize nloop) s (.thread .tidA)).isSome := by
        intro going mutex awake
        simpa [step, running, State.stepThread, hereA, loops, loopStep]
          using produceStep_isSome going mutex awake
      have goesB : locB ≠ .returned → s.memory.b_mutex = none ∨ Holds (some locB)
          → (Waits (some locB) → .tidB ∉ s.memory.b_cond_consumer)
          → (step (loops buffsize nloop) s (.thread .tidB)).isSome := by
        intro going mutex awake
        simpa [step, running, State.stepThread, hereB, loops, loopStep]
          using consumeStep_isSome going mutex awake place
      have notHolding : ∀ {loc : Loc}, Holds (some loc) → loc ≠ .returned ∧ ¬ Waits (some loc) := by
        intro loc holds
        cases loc <;> simp_all [Holds, Waits]
      cases mutex : s.memory.b_mutex with
      | some u =>
          cases u with
          | tidA =>
              have holds := inv.mutexA.mpr mutex
              exact ⟨_, rfl, goesA (notHolding holds).1 (.inr holds)
                fun waits => absurd waits (notHolding holds).2⟩
          | tidB =>
              have holds := inv.mutexB.mpr mutex
              exact ⟨_, rfl, goesB (notHolding holds).1 (.inr holds)
                fun waits => absurd waits (notHolding holds).2⟩
      | none =>
          by_cases blockedA : Blocked .tidA s.memory.b_cond_producer locA
          · by_cases blockedB : Blocked .tidB s.memory.b_cond_consumer locB
            · obtain ⟨doneA, doneB⟩ := not_both_blocked room inv blockedA blockedB
              refine absurd ?_ going
              cases t with
              | tidA => rw [hereA, doneA]; rfl
              | tidB => rw [hereB, doneB]; rfl
            · obtain ⟨going, awake⟩ := not_or.mp blockedB
              exact ⟨_, rfl, goesB going (.inl mutex) fun waits sleeps => awake ⟨waits, sleeps⟩⟩
          · obtain ⟨going, awake⟩ := not_or.mp blockedA
            exact ⟨_, rfl, goesA going (.inl mutex) fun waits sleeps => awake ⟨waits, sleeps⟩⟩

/-- Whatever the scheduling and the wakeups: what the consumer has printed are the items 0, 1, 2
and so on, each of them once and after the producer has, which is never ahead by more than the
buffer holds; no run is stuck, or longer than the loops and the wakeups allow; and when the program
exits, all items have been consumed.
-/
theorem run_delivers (buffsize nloop : Nat) (room : 0 < buffsize) (events : List Event)
    (s : State Memory Loc)
    (h : runEvents (step (loops buffsize nloop)) { memory := buf_t buffsize } events = some s)
    : (∃ put got, s.memory.printedBy .tidA = List.range put
        ∧ s.memory.printedBy .tidB = List.range got ∧ got ≤ put ∧ put ≤ got + buffsize)
      ∧ (0 ≤ s.memory.b_nitems ∧ s.memory.b_nitems ≤ buffsize)
      ∧ (s.main ≠ .exited
        → ∃ event : Event, event.isWake = false ∧ (step (loops buffsize nloop) s event).isSome)
      ∧ events.length ≤ 26 * nloop + 6 + 4 * events.countP Event.isWake
      ∧ (s.main = .exited → s.memory.printedBy .tidB = List.range nloop) := by
  obtain ⟨joins, inv⟩ := (kept_inv room).reachable start_inv ⟨events, h⟩
  refine ⟨⟨_, _, inv.produced, inv.consumed, ?_⟩, ⟨inv.least, inv.most⟩, goes_on room joins inv,
    ?_, fun exited => ?_⟩
  · have nitems := inv.nitems
    have least := inv.least
    have most := inv.most
    rcases announced_eq inv.knowsA with put | ⟨put, _⟩ <;>
    rcases moved_eq inv.knowsB with got | ⟨got, _⟩ <;> omega
  · have gone := forward_rank.length_le (kept_inv room) start_inv h
    have mostA : rankA buffsize nloop s.memory (s.place .tidA) ≤ _ := rank_most (.inl inv.knowsA)
    have mostB : rankB nloop s.memory (s.place .tidB) ≤ _ := rank_most (.inr inv.knowsB)
    have main : s.main.rank ≤ 4 := by cases s.main <;> simp [Main.rank]
    omega
  · rw [exited] at joins
    have done : s.place .tidB = some .returned := joins.exited .tidB
    rw [inv.consumed, done]
    rfl

/-- The consumer finds the buffer empty, sleeps, wakes up without a signal and sleeps again, until
the producer has put one item.
-/
def oneItem : List Event :=
  [.main, .main] ++ List.replicate 4 (.thread .tidB) ++ [.wake .tidB]
    ++ List.replicate 3 (.thread .tidB) ++ List.replicate 10 (.thread .tidA)
    ++ List.replicate 9 (.thread .tidB) ++ [.main, .main]

/-- The sample run can be made. -/
theorem oneItem_isSome
    : (runEvents (step (loops 1 1)) { memory := buf_t 1 } oneItem).isSome := by
  decide +kernel

/-- Witness: the program has exited, and the item has been consumed. -/
theorem run_delivers_oneItem
    : ((runEvents (step (loops 1 1)) { memory := buf_t 1 } oneItem).get
        oneItem_isSome).memory.printedBy .tidB = List.range 1 :=
  (run_delivers 1 1 Nat.one_pos oneItem _ (Option.some_get oneItem_isSome).symm).2.2.2.2
    (by decide +kernel)

end Minions.Unp.BoundedBuffer
