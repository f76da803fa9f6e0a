import Mathlib.Data.Finset.Card
import Mathlib.Data.Finset.Interval
import Mathlib.Data.Int.Interval
import Mathlib.Data.List.TakeWhile
import Minions.Data.Decimal
import Minions.Logic.Answers

/-! The echo server on `select`: `tcpcliserv/tcpservselect01.c`. Its array of descriptors and its
two marks, `maxi` and `maxfd`, implement a set of connections each of which is served once in a
turn.
-/

namespace Minions.Unp.SelectServer

open Minions.Data Minions.Logic

-----------------------------------------------------------------------------------------
-- The server
-----------------------------------------------------------------------------------------

/-- What `Read` and `Writen` make of a descriptor: the bytes are echoed, the client has closed
the connection, or a call fails and its wrapper ends the process.
-/
inductive Outcome where
  | echoed (bytes : List Byte)
  | closed
  | readFails
  | writeFails
deriving DecidableEq

/-- The wrappers return. -/
def Outcome.Returns : Outcome → Prop
  | .echoed _ => True
  | .closed => True
  | _ => False

instance (o : Outcome) : Decidable o.Returns :=
  match o with
  | .echoed _ => .isTrue trivial
  | .closed => .isTrue trivial
  | .readFails => .isFalse id
  | .writeFails => .isFalse id

/-- What `main` keeps from one `Select` to the next. -/
@[ext] structure Server where
  client : Nat → Int
  allset : Finset Int
  maxi : Int
  maxfd : Int

/-- What the system answers in one turn: the descriptors that have something to read, the
descriptor that `Accept` returns, and what becomes of each one that is read.
-/
structure Turn where
  ready : Int → Bool
  connfd : Int
  outcome : Int → Outcome

variable (setSize : Nat) (listenfd : Int)

/-- The state before the loop. -/
def start : Server where
  client _ := -1
  allset := {listenfd}
  maxi := -1
  maxfd := listenfd

/-- `Select(maxfd + 1, &rset, ...)`: the members of the set up to `maxfd` that are readable. -/
def Server.select (s : Server) (t : Turn) : Finset Int :=
  s.allset.filter fun fd => fd ≤ s.maxfd ∧ t.ready fd

/-- Serving the client in entry `i`; nothing when the process ends. -/
def Server.serve (s : Server) (i : Nat) (sockfd : Int) : Outcome → Option Server
  | .echoed _ => some s
  | .closed =>
      some { s with client := Function.update s.client i (-1), allset := s.allset.erase sockfd }
  | .readFails => none
  | .writeFails => none

/-- The loop that checks the clients in `slots` for data. The result has the descriptors that
were read.
-/
def Server.check (s : Server) (rset : Finset Int) (outcome : Int → Outcome)
    : List Nat → Int → Option Server × List Int
  | [], _ => (some s, [])
  | i :: rest, nready =>
      let sockfd := s.client i
      if sockfd < 0 then s.check rset outcome rest nready
      else if sockfd ∈ rset then
        match s.serve i sockfd (outcome sockfd) with
        | none => (none, [sockfd])
        | some s =>
            if nready - 1 ≤ 0 then (some s, [sockfd])
            else
              let (last, reads) := s.check rset outcome rest (nready - 1)
              (last, sockfd :: reads)
      else s.check rset outcome rest nready

/-- The loop over the entries up to `maxi`. -/
def Server.checkAll (s : Server) (rset : Finset Int) (t : Turn) (nready : Int)
    : Option Server × List Int :=
  s.check rset t.outcome (List.range (s.maxi + 1).toNat) nready

/-- The first entry that is available. -/
def Server.available (s : Server) : Option Nat :=
  (List.range setSize).find? fun i => s.client i < 0

/-- Saving the descriptor of a new connection. -/
def Server.add (s : Server) (i : Nat) (connfd : Int) : Server where
  client := Function.update s.client i connfd
  allset := insert connfd s.allset
  maxfd := if connfd > s.maxfd then connfd else s.maxfd
  maxi := if (i : Int) > s.maxi then i else s.maxi

/-- One turn of the loop of `main`, and the descriptors that it reads; nothing is left of the
process after `err_quit("too many clients")` or after a wrapper has ended it.
-/
def Server.turn (s : Server) (t : Turn) : Option Server × List Int :=
  let rset := s.select t
  let nready : Int := rset.card
  if listenfd ∈ rset then
    match s.available setSize with
    | none => (none, [])
    | some i =>
        let s := s.add i t.connfd
        if nready - 1 ≤ 0 then (some s, []) else s.checkAll rset t (nready - 1)
  else s.checkAll rset t nready

/-- The process as a component that answers turns; when it has ended it does nothing more. -/
def process : Option Server → Turn → List Int × Option Server
  | none, _ => ([], none)
  | some s, t => ((s.turn setSize listenfd t).2, (s.turn setSize listenfd t).1)

-----------------------------------------------------------------------------------------
-- What it is for
-----------------------------------------------------------------------------------------

/-- The connections that are served in a turn. -/
def served (conns : Finset Int) (t : Turn) : Finset Int := conns.filter fun fd => t.ready fd

/-- A server that keeps a set of connections: it takes the one that waits, serves all that are
ready, and forgets those that have been closed.
-/
def serve (conns : Finset Int) (t : Turn) : Finset Int :=
  (if t.ready listenfd then insert t.connfd conns else conns)
    \ (served conns t).filter fun fd => t.outcome fd = .closed

/-- It goes on exactly as long as all calls return. The answer to a turn is the connections that
are served, and whether the service goes on.
-/
def service : Option (Finset Int) → Turn → (Finset Int × Bool) × Option (Finset Int)
  | none, _ => ((∅, false), none)
  | some conns, t =>
      if ∀ fd ∈ served conns t, (t.outcome fd).Returns then
        ((served conns t, true), some (serve listenfd conns t))
      else ((served conns t, false), none)

/-- `Accept` returns a descriptor that is not in use and that an `fd_set` has room for. -/
def Fits (conns : Option (Finset Int)) (t : Turn) : Prop :=
  t.ready listenfd → 0 ≤ t.connfd ∧ t.connfd < setSize ∧ t.connfd ≠ listenfd
    ∧ ∀ inUse ∈ conns, t.connfd ∉ inUse

/-- No connection is read twice, and only those to be served are read: all of them, while the
service goes on.
-/
def EachOnce (reads : List Int) (answer : Finset Int × Bool) : Prop :=
  reads.Nodup ∧ (∀ fd ∈ reads, fd ∈ answer.1) ∧ (answer.2 → ∀ fd ∈ answer.1, fd ∈ reads)

/-- The array and the marks hold the connections. -/
structure Holds (s : Server) (conns : Finset Int) : Prop where
  listening : 0 ≤ listenfd
  mem : ∀ fd, fd ∈ conns ↔ 0 ≤ fd ∧ ∃ i < setSize, s.client i = fd
  once : ∀ i j, i < setSize → j < setSize → 0 ≤ s.client i → s.client i = s.client j → i = j
  low : ∀ i, i < setSize → 0 ≤ s.client i → (i : Int) ≤ s.maxi
  maxi : -1 ≤ s.maxi ∧ s.maxi < setSize
  allset : s.allset = insert listenfd conns
  maxfd : ∀ fd ∈ s.allset, fd ≤ s.maxfd
  fits : ∀ fd ∈ conns, fd < setSize ∧ fd ≠ listenfd

-----------------------------------------------------------------------------------------
-- What the check reads
-----------------------------------------------------------------------------------------

variable {setSize listenfd} {s s' : Server} {rset : Finset Int} {outcome : Int → Outcome}
  {slots : List Nat} {nready : Int} {t : Turn} {conns : Finset Int}

/-- The entries that have something to read. -/
def Server.todo (s : Server) (rset : Finset Int) (slots : List Nat) : List Nat :=
  slots.filter fun i => 0 ≤ s.client i ∧ s.client i ∈ rset

/-- The server after the entries in `slots` were checked, when no call has failed. -/
def Server.checked (s : Server) (rset : Finset Int) (outcome : Int → Outcome) (slots : List Nat)
    : Server :=
  { s with
    client := fun i =>
      if i ∈ s.todo rset slots ∧ outcome (s.client i) = .closed then -1 else s.client i
    allset := s.allset.filter fun fd =>
      ¬ ∃ i ∈ s.todo rset slots, s.client i = fd ∧ outcome fd = .closed }

/-- The slots that are to be served. -/
theorem mem_todo {i : Nat}
    : i ∈ s.todo rset slots ↔ i ∈ slots ∧ 0 ≤ s.client i ∧ s.client i ∈ rset := by
  simp [Server.todo]

/-- Other slots do not matter. -/
theorem todo_congr (same : ∀ i ∈ slots, s'.client i = s.client i)
    : s'.todo rset slots = s.todo rset slots :=
  List.filter_congr fun i member => by simp only [same i member]

/-- A slot that is ready is to be served. -/
theorem todo_cons_of_ready {i : Nat} (valid : 0 ≤ s.client i) (ready : s.client i ∈ rset)
    : s.todo rset (i :: slots) = i :: s.todo rset slots := by
  simp [Server.todo, valid, ready]

/-- A slot that is not ready is passed over. -/
theorem todo_cons_of_idle {i : Nat} (idle : ¬ (0 ≤ s.client i ∧ s.client i ∈ rset))
    : s.todo rset (i :: slots) = s.todo rset slots := by
  simp only [Server.todo, List.filter_cons, idle, decide_false, Bool.false_eq_true, if_false]

/-- Without slots to serve the check changes nothing. -/
theorem checked_of_nothing (nothing : s.todo rset slots = [])
    : s.checked rset outcome slots = s := by
  simp [Server.checked, nothing]

/-- A call that returns leaves the other entries. -/
theorem serve_some {i : Nat} {fd : Int} {o : Outcome} (serves : s.serve i fd o = some s')
    : o.Returns ∧ s'.maxi = s.maxi ∧ s'.maxfd = s.maxfd
      ∧ s'.client = (if o = .closed then Function.update s.client i (-1) else s.client)
      ∧ s'.allset = if o = .closed then s.allset.erase fd else s.allset := by
  cases o <;> cases serves <;> simp [Outcome.Returns]

/-- Serving a client does not return exactly if its outcome does not. -/
theorem serve_none {i : Nat} {fd : Int} {o : Outcome}
    : s.serve i fd o = none ↔ ¬ o.Returns := by
  cases o <;> simp [Server.serve, Outcome.Returns]

/-- Serving the first entry and checking the others is checking all. -/
theorem checked_cons {i : Nat} (outside : i ∉ slots) (valid : 0 ≤ s.client i)
    (ready : s.client i ∈ rset)
    (serves : s.serve i (s.client i) (outcome (s.client i)) = some s')
    : s'.checked rset outcome slots = s.checked rset outcome (i :: slots)
      ∧ s'.todo rset slots = s.todo rset slots ∧ ∀ j ∈ slots, s'.client j = s.client j := by
  obtain ⟨-, maxi, maxfd, client, allset⟩ := serve_some serves
  have others : ∀ j, j ≠ i → s'.client j = s.client j := by
    intro j other
    rw [client]
    split
    · exact Function.update_of_ne other ..
    · rfl
  have same : ∀ j ∈ slots, s'.client j = s.client j :=
    fun j member => others j fun eq => outside (eq ▸ member)
  have todo : s'.todo rset slots = s.todo rset slots := todo_congr same
  refine ⟨?_, todo, same⟩
  have clients : (s'.checked rset outcome slots).client
      = (s.checked rset outcome (i :: slots)).client := by
    funext j
    simp only [Server.checked, todo, todo_cons_of_ready valid ready, List.mem_cons]
    by_cases here : j = i
    · subst here
      have absent : j ∉ s.todo rset slots := fun member => outside (mem_todo.mp member).1
      by_cases ends : outcome (s.client j) = .closed <;> simp [absent, client, ends]
    · rw [others j here]
      simp [here]
  have sets : (s'.checked rset outcome slots).allset
      = (s.checked rset outcome (i :: slots)).allset := by
    ext fd
    have later : (∃ j ∈ s.todo rset slots, s'.client j = fd ∧ outcome fd = .closed)
        ↔ ∃ j ∈ s.todo rset slots, s.client j = fd ∧ outcome fd = .closed :=
      exists_congr fun j => and_congr_right fun member => by rw [same j (mem_todo.mp member).1]
    simp only [Server.checked, todo, todo_cons_of_ready valid ready, Finset.mem_filter, later,
      List.exists_mem_cons_iff, not_or, allset]
    by_cases ends : outcome (s.client i) = .closed
    · rw [if_pos ends, Finset.mem_erase]
      by_cases here : fd = s.client i
      · simp [here, ends]
      · simp [here, Ne.symm here]
    · rw [if_neg ends]
      by_cases here : fd = s.client i
      · simp [here, ends]
      · simp [Ne.symm here]
  exact Server.ext clients sets maxi maxfd

/-- The check reads every entry that has something to read, in order, where `nready` counts no
fewer; by induction on the entries.
-/
theorem check_all (nodup : slots.Nodup) (enough : ((s.todo rset slots).length : Int) ≤ nready)
    (returns : ∀ i ∈ s.todo rset slots, (outcome (s.client i)).Returns)
    : s.check rset outcome slots nready
      = (some (s.checked rset outcome slots), (s.todo rset slots).map s.client) := by
  induction slots generalizing s nready with
  | nil => rw [checked_of_nothing (by rfl)]; rfl
  | cons i rest ih =>
      obtain ⟨outside, nodup⟩ := List.nodup_cons.mp nodup
      by_cases ready : 0 ≤ s.client i ∧ s.client i ∈ rset
      · obtain ⟨valid, member⟩ := ready
        rw [todo_cons_of_ready valid member] at enough returns ⊢
        rw [Server.check, if_neg (by omega), if_pos member]
        cases serves : s.serve i (s.client i) (outcome (s.client i)) with
        | none => exact absurd (returns i (by simp)) (serve_none.mp serves)
        | some next =>
            obtain ⟨checked, todo, same⟩ := checked_cons outside valid member serves
            simp only [List.length_cons] at enough
            push_cast at enough
            have reads : (s.todo rset rest).map next.client = (s.todo rset rest).map s.client :=
              List.map_congr_left fun j here => same j (mem_todo.mp here).1
            by_cases last : nready - 1 ≤ 0
            · have nothing : s.todo rset rest = [] := List.length_eq_zero_iff.mp (by omega)
              simp only [if_pos last]
              rw [← checked, checked_of_nothing (by rw [todo, nothing]), nothing]
              rfl
            · have rests := @ih next (nready - 1) nodup (by rw [todo]; omega)
                (fun j here => by
                  rw [todo] at here
                  rw [same j (mem_todo.mp here).1]
                  exact returns j (by simp [here]))
              simp only [if_neg last]
              rw [rests, checked, todo, reads]
              rfl
      · have same : s.checked rset outcome (i :: rest) = s.checked rset outcome rest := by
          simp only [Server.checked, todo_cons_of_idle ready]
        rw [todo_cons_of_idle ready] at enough returns ⊢
        rw [Server.check, same]
        by_cases free : s.client i < 0
        · rw [if_pos free]
          exact ih nodup enough returns
        · have absent : s.client i ∉ rset := fun member => ready ⟨by omega, member⟩
          rw [if_neg free, if_neg absent]
          exact ih nodup enough returns

/-- A call that fails ends the process, and until then no entry is read that has nothing to
read, nor any one twice.
-/
theorem check_fails (nodup : slots.Nodup) (enough : ((s.todo rset slots).length : Int) ≤ nready)
    (fails : ∃ i ∈ s.todo rset slots, ¬ (outcome (s.client i)).Returns)
    : (s.check rset outcome slots nready).1 = none
      ∧ (s.check rset outcome slots nready).2.Sublist ((s.todo rset slots).map s.client) := by
  induction slots generalizing s nready with
  | nil =>
      obtain ⟨i, member, _⟩ := fails
      cases member
  | cons i rest ih =>
      obtain ⟨outside, nodup⟩ := List.nodup_cons.mp nodup
      by_cases ready : 0 ≤ s.client i ∧ s.client i ∈ rset
      · obtain ⟨valid, member⟩ := ready
        rw [todo_cons_of_ready valid member] at enough fails ⊢
        rw [Server.check, if_neg (by omega), if_pos member]
        cases serves : s.serve i (s.client i) (outcome (s.client i)) with
        | none => exact ⟨rfl, (List.nil_sublist _).cons_cons _⟩
        | some next =>
            obtain ⟨_, todo, same⟩ := checked_cons outside valid member serves
            have returns := (serve_some serves).1
            have later : ∃ j ∈ s.todo rset rest, ¬ (outcome (s.client j)).Returns := by
              obtain ⟨j, here, failed⟩ := fails
              rcases List.mem_cons.mp here with rfl | here
              · exact absurd returns failed
              · exact ⟨j, here, failed⟩
            obtain ⟨j, here, failed⟩ := later
            have pending := List.length_pos_of_mem here
            simp only [List.length_cons] at enough
            push_cast at enough
            have more : ¬ nready - 1 ≤ 0 := by omega
            have rests := @ih next (nready - 1) nodup (by rw [todo]; omega)
              ⟨j, by rwa [todo], by rwa [same j (mem_todo.mp here).1]⟩
            have reads : (s.todo rset rest).map next.client = (s.todo rset rest).map s.client :=
              List.map_congr_left fun k there => same k (mem_todo.mp there).1
            rw [todo, reads] at rests
            simp only [if_neg more]
            exact ⟨rests.1, rests.2.cons_cons _⟩
      · rw [todo_cons_of_idle ready] at enough fails ⊢
        rw [Server.check]
        by_cases free : s.client i < 0
        · rw [if_pos free]
          exact ih nodup enough fails
        · have absent : s.client i ∉ rset := fun member => ready ⟨by omega, member⟩
          rw [if_neg free, if_neg absent]
          exact ih nodup enough fails

-----------------------------------------------------------------------------------------
-- One turn
-----------------------------------------------------------------------------------------

/-- At the start the server holds no connection. -/
theorem start_holds (listening : 0 ≤ listenfd) : Holds setSize listenfd (start listenfd) ∅ where
  listening := listening
  mem fd := by
    simp only [Finset.notMem_empty, start, false_iff]
    rintro ⟨valid, i, _, rfl⟩
    omega
  once i j _ _ valid := by simp [start] at valid
  low i _ valid := by simp [start] at valid
  maxi := by simp [start]; omega
  allset := by simp [start]
  maxfd := by simp [start]
  fits := by simp

/-- The descriptors that are selected. -/
theorem Holds.select (holds : Holds setSize listenfd s conns) (t : Turn)
    : s.select t = (insert listenfd conns).filter fun fd => t.ready fd := by
  rw [Server.select, holds.allset]
  refine Finset.filter_congr fun fd member => ?_
  have bound := holds.maxfd fd (by rwa [holds.allset])
  simp [bound]

/-- The entries that the check has to do are the connections in the set. -/
theorem Holds.todo_fds (holds : Holds setSize listenfd s conns) (rset : Finset Int)
    : ((s.todo rset (List.range (s.maxi + 1).toNat)).map s.client).Nodup
      ∧ ∀ fd, fd ∈ (s.todo rset (List.range (s.maxi + 1).toNat)).map s.client
        ↔ fd ∈ conns ∧ fd ∈ rset := by
  have bound := holds.maxi
  constructor
  · refine List.Nodup.map_on (fun i hi j hj same => ?_) (List.nodup_range.filter _)
    have hi := mem_todo.mp hi
    have hj := mem_todo.mp hj
    rw [List.mem_range] at hi hj
    exact holds.once i j (by omega) (by omega) hi.2.1 same
  · intro fd
    simp only [List.mem_map, mem_todo, List.mem_range]
    constructor
    · rintro ⟨i, ⟨low, valid, ready⟩, rfl⟩
      exact ⟨(holds.mem _).mpr ⟨valid, i, by omega, rfl⟩, ready⟩
    · rintro ⟨member, ready⟩
      obtain ⟨valid, i, inside, rfl⟩ := (holds.mem fd).mp member
      have low := holds.low i inside valid
      exact ⟨i, ⟨by omega, valid, ready⟩, rfl⟩

/-- There are as many slots to serve as ready connections. -/
theorem Holds.todo_length (holds : Holds setSize listenfd s conns) (rset : Finset Int)
    : (s.todo rset (List.range (s.maxi + 1).toNat)).length
      = (conns.filter fun fd => fd ∈ rset).card := by
  obtain ⟨nodup, mem⟩ := holds.todo_fds rset
  rw [← List.length_map (f := s.client), ← List.toFinset_card_of_nodup nodup]
  congr 1
  ext fd
  rw [List.mem_toFinset, mem fd, Finset.mem_filter]

/-- Closing what is to be closed. -/
theorem Holds.checked (holds : Holds setSize listenfd s conns) (rset : Finset Int)
    (outcome : Int → Outcome)
    : Holds setSize listenfd (s.checked rset outcome (List.range (s.maxi + 1).toNat))
      (conns.filter fun fd => ¬ (fd ∈ rset ∧ outcome fd = .closed)) := by
  have bound := holds.maxi
  have ends : ∀ i, i < setSize → 0 ≤ s.client i →
      (i ∈ s.todo rset (List.range (s.maxi + 1).toNat) ↔ s.client i ∈ rset) := by
    intro i inside valid
    have low := holds.low i inside valid
    simp only [mem_todo, List.mem_range, valid, true_and, and_iff_right_iff_imp]
    omega
  have kept : ∀ i, i < setSize →
      0 ≤ (s.checked rset outcome (List.range (s.maxi + 1).toNat)).client i →
      (s.checked rset outcome (List.range (s.maxi + 1).toNat)).client i = s.client i
        ∧ 0 ≤ s.client i ∧ ¬ (s.client i ∈ rset ∧ outcome (s.client i) = .closed) := by
    intro i inside valid
    simp only [Server.checked] at valid ⊢
    split at valid
    · omega
    · next remains =>
        rw [ends i inside valid] at remains
        rw [if_neg (by rwa [ends i inside valid])]
        exact ⟨rfl, valid, remains⟩
  have stays : ∀ i, i < setSize → 0 ≤ s.client i →
      ¬ (s.client i ∈ rset ∧ outcome (s.client i) = .closed) →
      (s.checked rset outcome (List.range (s.maxi + 1).toNat)).client i = s.client i := by
    intro i inside valid remains
    exact if_neg (by rwa [ends i inside valid])
  refine ⟨holds.listening, fun fd => ?_, fun i j hi hj valid same => ?_, fun i inside valid => ?_,
    holds.maxi, ?_, fun fd member => ?_, fun fd member => ?_⟩
  · rw [Finset.mem_filter, holds.mem]
    constructor
    · rintro ⟨⟨valid, i, inside, rfl⟩, remains⟩
      exact ⟨valid, i, inside, stays i inside valid remains⟩
    · rintro ⟨valid, i, inside, rfl⟩
      obtain ⟨same, valid', remains⟩ := kept i inside valid
      rw [same]
      exact ⟨⟨valid', i, inside, rfl⟩, remains⟩
  · have first := kept i hi valid
    have second := kept j hj (same ▸ valid)
    exact holds.once i j hi hj first.2.1 (by rw [← first.1, ← second.1, same])
  · exact holds.low i inside (kept i inside valid).2.1
  · ext fd
    simp only [Server.checked, Finset.mem_filter, holds.allset, Finset.mem_insert]
    have closes : (∃ i ∈ s.todo rset (List.range (s.maxi + 1).toNat),
        s.client i = fd ∧ outcome fd = .closed)
        ↔ fd ∈ conns ∧ fd ∈ rset ∧ outcome fd = .closed := by
      have mem := (holds.todo_fds rset).2 fd
      rw [List.mem_map] at mem
      rw [← and_assoc, ← mem]
      simp only [← and_assoc, exists_and_right]
    rw [closes]
    have apart : fd = listenfd → fd ∉ conns := by
      rintro rfl member
      exact (holds.fits _ member).2 rfl
    tauto
  · exact holds.maxfd fd (Finset.mem_filter.mp member).1
  · exact holds.fits fd (Finset.mem_filter.mp member).1

/-- Saving the descriptor of a new connection in an available entry. -/
theorem Holds.add (holds : Holds setSize listenfd s conns) {i : Nat} (inside : i < setSize)
    (free : s.client i < 0) {connfd : Int} (valid : 0 ≤ connfd) (fits : connfd < setSize)
    (other : connfd ≠ listenfd) (new : connfd ∉ conns)
    : Holds setSize listenfd (s.add i connfd) (insert connfd conns) := by
  have bound := holds.maxi
  have absent : ∀ j, j < setSize → s.client j ≠ connfd := by
    rintro j here rfl
    exact new ((holds.mem _).mpr ⟨valid, j, here, rfl⟩)
  have entry : ∀ j, j ≠ i → (s.add i connfd).client j = s.client j :=
    fun j apart => Function.update_of_ne apart ..
  have here : (s.add i connfd).client i = connfd := Function.update_self ..
  have maxi : s.maxi ≤ (s.add i connfd).maxi ∧ (i : Int) ≤ (s.add i connfd).maxi
      ∧ ((s.add i connfd).maxi = s.maxi ∨ (s.add i connfd).maxi = i) := by
    simp only [Server.add]
    split <;> omega
  refine ⟨holds.listening, fun fd => ?_, fun j k hj hk valid' same => ?_, fun j inside' valid' => ?_,
    by omega, by simp only [Server.add, holds.allset, Finset.insert_comm], fun fd member => ?_,
    fun fd member => ?_⟩
  · rw [Finset.mem_insert, holds.mem]
    constructor
    · rintro (rfl | ⟨valid', j, inside', rfl⟩)
      · exact ⟨valid, i, inside, here⟩
      · refine ⟨valid', j, inside', entry j ?_⟩
        rintro rfl
        omega
    · rintro ⟨valid', j, inside', rfl⟩
      by_cases apart : j = i
      · subst apart
        exact .inl here
      · rw [entry j apart] at valid' ⊢
        exact .inr ⟨valid', j, inside', rfl⟩
  · by_cases hji : j = i <;> by_cases hki : k = i
    · rw [hji, hki]
    · rw [hji, here, entry k hki] at same
      exact absurd same.symm (absent k hk)
    · rw [hki, here, entry j hji] at same
      exact absurd same (absent j hj)
    · rw [entry j hji] at same valid'
      rw [entry k hki] at same
      exact holds.once j k hj hk valid' same
  · by_cases apart : j = i
    · subst apart
      exact maxi.2.1
    · rw [entry j apart] at valid'
      have := holds.low j inside' valid'
      omega
  · simp only [Server.add, Finset.mem_insert] at member ⊢
    rcases member with rfl | member
    · split <;> omega
    · have := holds.maxfd fd member
      split <;> omega
  · rcases Finset.mem_insert.mp member with rfl | member
    · exact ⟨fits, other⟩
    · exact holds.fits fd member

/-- There is an available entry for a descriptor that an `fd_set` has room for: with all entries
in use the connections would be as many as the descriptors it has room for, and that
descriptor is not one of them.
-/
theorem Holds.available (holds : Holds setSize listenfd s conns) {connfd : Int} (valid : 0 ≤ connfd)
    (fits : connfd < setSize) (new : connfd ∉ conns)
    : ∃ i, s.available setSize = some i ∧ i < setSize ∧ s.client i < 0 := by
  cases found : s.available setSize with
  | some i =>
      have inside := List.mem_range.mp (List.mem_of_find?_eq_some found)
      have free := List.find?_some found
      exact ⟨i, rfl, inside, of_decide_eq_true free⟩
  | none =>
      have used : ∀ i, i < setSize → 0 ≤ s.client i := by
        intro i inside
        have := List.find?_eq_none.mp found i (List.mem_range.mpr inside)
        simpa using this
      have inside : ∀ i ∈ Finset.range setSize,
          s.client i ∈ (Finset.Ico 0 (setSize : Int)).erase connfd := by
        intro i member
        have low := Finset.mem_range.mp member
        have inUse := (holds.mem _).mpr ⟨used i low, i, low, rfl⟩
        rw [Finset.mem_erase, Finset.mem_Ico]
        exact ⟨fun same => new (same ▸ inUse), used i low, (holds.fits _ inUse).1⟩
      have once : Set.InjOn s.client (Finset.range setSize) := by
        intro i hi j hj same
        have hi := Finset.mem_range.mp hi
        exact holds.once i j hi (Finset.mem_range.mp hj) (used i hi) same
      have count := Finset.card_le_card_of_injOn s.client inside once
      rw [Finset.card_range, Finset.card_erase_of_mem (Finset.mem_Ico.mpr ⟨valid, fits⟩),
        Int.card_Ico] at count
      omega

/-- The check of all entries serves the connections in the set, or ends the process. -/
theorem Holds.checkAll (holds : Holds setSize listenfd s conns) (rset : Finset Int) (t : Turn)
    (enough : ((conns.filter fun fd => fd ∈ rset).card : Int) ≤ nready)
    : ((∀ fd ∈ conns.filter (fun fd => fd ∈ rset), (t.outcome fd).Returns) →
        (∃ s', (s.checkAll rset t nready).1 = some s' ∧ Holds setSize listenfd s'
          (conns.filter fun fd => ¬ (fd ∈ rset ∧ t.outcome fd = .closed)))
        ∧ EachOnce (s.checkAll rset t nready).2 (conns.filter (fun fd => fd ∈ rset), true))
      ∧ ((¬ ∀ fd ∈ conns.filter (fun fd => fd ∈ rset), (t.outcome fd).Returns) →
        (s.checkAll rset t nready).1 = none
        ∧ EachOnce (s.checkAll rset t nready).2 (conns.filter (fun fd => fd ∈ rset), false)) := by
  obtain ⟨nodup, mem⟩ := holds.todo_fds rset
  rw [← holds.todo_length rset] at enough
  have mem' : ∀ fd, fd ∈ (s.todo rset (List.range (s.maxi + 1).toNat)).map s.client
      ↔ fd ∈ conns.filter fun fd => fd ∈ rset := by
    intro fd
    rw [mem fd, Finset.mem_filter]
  constructor
  · intro returns
    have all := check_all List.nodup_range enough fun i member =>
      returns _ ((mem' _).mp (List.mem_map_of_mem member))
    rw [Server.checkAll, all]
    exact ⟨⟨_, rfl, holds.checked rset t.outcome⟩, nodup, fun fd => (mem' fd).mp,
      fun _ fd => (mem' fd).mpr⟩
  · intro fails
    simp only [not_forall] at fails
    obtain ⟨fd, member, failed⟩ := fails
    obtain ⟨i, here, rfl⟩ := List.mem_map.mp ((mem' fd).mpr member)
    obtain ⟨ends, sublist⟩ := check_fails List.nodup_range enough ⟨i, here, failed⟩
    rw [Server.checkAll]
    exact ⟨ends, sublist.nodup nodup, fun fd member => (mem' fd).mp (sublist.subset member),
      fun impossible => by cases impossible⟩

/-- One turn of the server is one turn of the service. -/
theorem Holds.turn (holds : Holds setSize listenfd s conns)
    (fits : Fits setSize listenfd (some conns) t)
    : ((∀ fd ∈ served conns t, (t.outcome fd).Returns) →
        (∃ s', (s.turn setSize listenfd t).1 = some s'
          ∧ Holds setSize listenfd s' (serve listenfd conns t))
        ∧ EachOnce (s.turn setSize listenfd t).2 (served conns t, true))
      ∧ ((¬ ∀ fd ∈ served conns t, (t.outcome fd).Returns) →
        (s.turn setSize listenfd t).1 = none
        ∧ EachOnce (s.turn setSize listenfd t).2 (served conns t, false)) := by
  have rset := holds.select t
  have mem : ∀ fd, fd ∈ s.select t ↔ (fd = listenfd ∨ fd ∈ conns) ∧ t.ready fd := by
    intro fd
    rw [rset, Finset.mem_filter, Finset.mem_insert]
  have old : (conns.filter fun fd => fd ∈ s.select t) = served conns t := by
    refine Finset.filter_congr fun fd member => ?_
    simp [mem, member]
  have apart : listenfd ∉ conns := fun member => (holds.fits _ member).2 rfl
  by_cases arrives : t.ready listenfd = true
  · obtain ⟨valid, room, other, new⟩ := fits arrives
    have new := new conns rfl
    obtain ⟨i, available, inside, free⟩ := holds.available valid room new
    have added := holds.add inside free valid room other new
    have unread : t.connfd ∉ s.select t := by
      rw [mem]
      rintro ⟨same | member, _⟩
      · exact other same
      · exact new member
    have served' : ((insert t.connfd conns).filter fun fd => fd ∈ s.select t) = served conns t := by
      rw [Finset.filter_insert, if_neg unread, old]
    have count : (s.select t).card = (served conns t).card + 1 := by
      rw [rset, Finset.filter_insert, if_pos arrives, Finset.card_insert_of_notMem]
      · rfl
      · exact fun member => apart (Finset.mem_filter.mp member).1
    have after : ((insert t.connfd conns).filter fun fd =>
        ¬ (fd ∈ s.select t ∧ t.outcome fd = .closed)) = serve listenfd conns t := by
      ext fd
      simp only [serve, arrives, if_true, Finset.mem_sdiff, Finset.mem_filter, ← served']
      tauto
    have turn : s.turn setSize listenfd t
        = if ((served conns t).card : Int) ≤ 0 then (some (s.add i t.connfd), [])
          else (s.add i t.connfd).checkAll (s.select t) t (served conns t).card := by
      have arrived : listenfd ∈ s.select t := (mem _).mpr ⟨.inl rfl, arrives⟩
      simp only [Server.turn, arrived, if_true, available, count]
      push_cast
      simp only [Int.add_sub_cancel]
    rw [turn]
    by_cases idle : ((served conns t).card : Int) ≤ 0
    · have nothing : served conns t = ∅ := Finset.card_eq_zero.mp (by omega)
      rw [if_pos idle, nothing]
      refine ⟨fun _ => ⟨⟨_, rfl, ?_⟩, by simp [EachOnce]⟩, fun fails => absurd (by simp) fails⟩
      simpa [serve, arrives, nothing] using added
    · rw [if_neg idle]
      have checked := added.checkAll (s.select t) t (le_of_eq (congrArg _
        (congrArg Finset.card served')))
      rw [served', after] at checked
      exact checked
  · have count : (s.select t).card = (served conns t).card := by
      rw [rset, Finset.filter_insert, if_neg arrives]
      rfl
    have after : (conns.filter fun fd => ¬ (fd ∈ s.select t ∧ t.outcome fd = .closed))
        = serve listenfd conns t := by
      ext fd
      simp only [serve, arrives, Bool.false_eq_true, if_false, Finset.mem_sdiff,
        Finset.mem_filter, ← old]
      tauto
    have turn : s.turn setSize listenfd t
        = s.checkAll (s.select t) t (served conns t).card := by
      have idle : listenfd ∉ s.select t := fun member => arrives ((mem _).mp member).2
      simp only [Server.turn, idle, if_false, count]
    have checked := holds.checkAll (s.select t) t (le_of_eq (congrArg _
      (congrArg Finset.card old)))
    rw [old, after] at checked
    rw [turn]
    exact checked

-----------------------------------------------------------------------------------------
-- All turns
-----------------------------------------------------------------------------------------

/-- The process goes on exactly when the service does, and then it holds the connections. -/
def Serves (setSize : Nat) (listenfd : Int) : Option Server → Option (Finset Int) → Prop
  | some s, some conns => Holds setSize listenfd s conns
  | none, none => True
  | _, _ => False

/-- Every turn serves as the set of connections does. -/
theorem serves_turn {p : Option Server} {q : Option (Finset Int)}
    (fits : Fits setSize listenfd q t) (serves : Serves setSize listenfd p q)
    : EachOnce (process setSize listenfd p t).1 (service listenfd q t).1
      ∧ Serves setSize listenfd (process setSize listenfd p t).2 (service listenfd q t).2 := by
  cases p with
  | none =>
      cases q with
      | none => simp [process, service, EachOnce, Serves]
      | some conns => cases serves
  | some s =>
      cases q with
      | none => cases serves
      | some conns =>
          obtain ⟨goesOn, ends⟩ := Holds.turn serves fits
          by_cases returns : ∀ fd ∈ served conns t, (t.outcome fd).Returns
          · obtain ⟨⟨s', next, holds⟩, once⟩ := goesOn returns
            simp only [process, service, if_pos returns, next]
            exact ⟨once, holds⟩
          · obtain ⟨next, once⟩ := ends returns
            simp only [process, service, if_neg returns, next]
            exact ⟨once, trivial⟩

/-- In every run in which `Accept` returns descriptors that are not in use and that an `fd_set`
has room for, the server serves as the set of its connections does: in each turn every
connection that is ready is read exactly once, whatever entry it is in, no other descriptor is
read, and the process ends only when a read or a write fails, never for want of an entry.
-/
theorem run_serves (setSize : Nat) {listenfd : Int} (listening : 0 ≤ listenfd) (turns : List Turn)
    (fits : EveryStep (next (service listenfd)) (Fits setSize listenfd) (some ∅) turns)
    : List.Forall₂ EachOnce
        (answers (process setSize listenfd) (some (start listenfd)) turns)
        (answers (service listenfd) (some ∅) turns)
      ∧ Serves setSize listenfd (after (process setSize listenfd) (some (start listenfd)) turns)
        (after (service listenfd) (some ∅) turns) := by
  have started : Serves setSize listenfd (some (start listenfd)) (some ∅) := start_holds listening
  refine answers_related (Serves setSize listenfd) ?_ fits started
  intro p q t fits serves
  exact serves_turn fits serves

/-- A client connects. -/
def connects : Turn := ⟨fun fd => fd = 3, 4, fun _ => .closed⟩

/-- Another one connects while the first sends. -/
def sends : Turn := ⟨fun fd => fd = 3 ∨ fd = 4, 5, fun _ => .echoed [104, 105]⟩

/-- Witness: in the second turn descriptor 4 is read, and 5 is not. -/
theorem run_serves_two
    : List.Forall₂ EachOnce
        (answers (process 1024 3) (some (start 3)) [connects, sends])
        (answers (service 3) (some ∅) [connects, sends])
      ∧ Serves 1024 3 (after (process 1024 3) (some (start 3)) [connects, sends])
        (after (service 3) (some ∅) [connects, sends]) :=
  run_serves 1024 (by decide) [connects, sends]
    ⟨fun _ => by simp [connects], fun _ => by
      simp [sends, connects, service, served, serve], trivial⟩

end Minions.Unp.SelectServer
