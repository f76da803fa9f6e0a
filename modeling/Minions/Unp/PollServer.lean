import Mathlib.Data.List.Basic
import Mathlib.Data.List.TakeWhile
import Minions.Logic.Events

/-! The echo server on `poll`: `tcpcliserv/tcpservpoll01.c`. The array `client` is automatic, and
of most of its entries `main` sets only the descriptor.
-/

namespace Minions.Unp.PollServer

open Minions.Logic

-----------------------------------------------------------------------------------------
-- The server
-----------------------------------------------------------------------------------------

/-- `struct pollfd`. -/
structure Pollfd where
  fd : Int
  events : Nat
  revents : Nat
deriving DecidableEq

def POLLERR : Nat := 0x8

def POLLHUP : Nat := 0x10

def POLLRDNORM : Nat := 0x40

/-- What `main` keeps from one `Poll` to the next. -/
structure Server where
  client : Nat → Pollfd
  maxi : Nat

/-- What `read` answers. -/
inductive Outcome where
  | data
  | closed
  | reset
  | failed
deriving DecidableEq

/-- What the system answers in one turn of the loop: the events that `Poll` finds for the
entries with a descriptor, the descriptor that `Accept` returns, and what `read` returns for
each descriptor.
-/
structure Turn where
  revents : Nat → Nat
  connfd : Int
  outcome : Int → Outcome

variable (openMax : Nat)

/-- The array after the declarations and the loop that sets the descriptors; `garbage` is what
it was made from.
-/
def start (garbage : Nat → Pollfd) (listenfd : Nat) : Server where
  client i :=
    if i = 0 then { garbage 0 with fd := listenfd, events := POLLRDNORM }
    else { garbage i with fd := -1 }
  maxi := 0

/-- `Poll(client, maxi + 1, INFTIM)`: it sets `revents` of the entries up to `maxi`, to 0 where
there is no descriptor, and returns how many are not 0.
-/
def Server.poll (s : Server) (t : Turn) : Server × Nat :=
  let client := fun i =>
    if i ≤ s.maxi then
      { s.client i with revents := if (s.client i).fd < 0 then 0 else t.revents i }
    else s.client i
  ({ s with client },
    ((List.range (s.maxi + 1)).filter fun i => (client i).revents ≠ 0).length)

/-- `revents & (POLLRDNORM | POLLERR)`. -/
def Readable (revents : Nat) : Prop := revents &&& (POLLRDNORM ||| POLLERR) ≠ 0

instance (revents : Nat) : Decidable (Readable revents) := inferInstanceAs (Decidable (_ ≠ _))

/-- Reading from the client in entry `i`, and what becomes of the array; nothing when the
process ends.
-/
def visit (outcome : Int → Outcome) (client : Nat → Pollfd) (i : Nat) : Option (Nat → Pollfd) :=
  match outcome (client i).fd with
  | .data => some client
  | .closed => some (Function.update client i { client i with fd := -1 })
  | .reset => some (Function.update client i { client i with fd := -1 })
  | .failed => none

/-- The loop that looks at the clients in `slots`. The result has the array, or nothing when
the process has ended, and the descriptors that were read.
-/
def scan (outcome : Int → Outcome)
    : List Nat → (Nat → Pollfd) → Nat → Option (Nat → Pollfd) × List Int
  | [], client, _ => (some client, [])
  | i :: rest, client, nready =>
      if (client i).fd < 0 then scan outcome rest client nready
      else if Readable (client i).revents then
        let sockfd := (client i).fd
        match visit outcome client i with
        | none => (none, [sockfd])
        | some client =>
            if nready - 1 ≤ 0 then (some client, [sockfd])
            else
              let (last, reads) := scan outcome rest client (nready - 1)
              (last, sockfd :: reads)
      else scan outcome rest client nready

/-- The loop over all clients. -/
def Server.scan (s : Server) (t : Turn) (nready : Nat) : Option Server × List Int :=
  let (client, reads) := PollServer.scan t.outcome (List.range' 1 s.maxi) s.client nready
  (client.map fun client => { s with client }, reads)

/-- The first entry without a descriptor. -/
def Server.freeEntry (s : Server) : Option Nat :=
  (List.range' 1 (openMax - 1)).find? fun i => (s.client i).fd < 0

/-- Saving the descriptor of a new connection. -/
def Server.add (s : Server) (i : Nat) (connfd : Int) : Server where
  client := Function.update s.client i { s.client i with fd := connfd, events := POLLRDNORM }
  maxi := max s.maxi i

/-- One turn of the loop of `main`, and the client descriptors that it reads. -/
def Server.turn (s : Server) (t : Turn) : Option Server × List Int :=
  let (s, nready) := s.poll t
  if (s.client 0).revents &&& POLLRDNORM ≠ 0 then
    match s.freeEntry openMax with
    | none => (none, [])
    | some i =>
        let s := s.add i t.connfd
        if nready - 1 ≤ 0 then (some s, []) else s.scan t (nready - 1)
  else s.scan t nready

/-- The server as a system that turns drive. -/
def Server.step (s : Server) (t : Turn) : Option Server := (s.turn openMax t).1

-----------------------------------------------------------------------------------------
-- What is asked of a turn
-----------------------------------------------------------------------------------------

/-- `Poll` has reported `POLLRDNORM` or `POLLERR` for the descriptor. -/
def Reported (s : Server) (t : Turn) (fd : Int) : Prop :=
  ∃ i ≤ s.maxi, (s.client i).fd = fd ∧ Readable (t.revents i)

/-- `Accept` returns a descriptor that is not in use. -/
def Unused (s : Server) (t : Turn) : Prop :=
  0 ≤ t.connfd ∧ ∀ i ≤ s.maxi, (s.client i).fd ≠ t.connfd

/-- Only descriptors that `Poll` has reported are read. -/
def ReadsReported (s : Server) (t : Turn) : Prop :=
  ∀ fd ∈ (s.turn openMax t).2, Reported s t fd

/-- What `poll` reports for a TCP client of which `POLLRDNORM` is asked: data, the end of the
stream and a reset all leave something for `read` to return.
-/
def PollReports (s : Server) (t : Turn) : Prop :=
  ∀ i ≤ s.maxi, 1 ≤ i → 0 ≤ (s.client i).fd → t.revents i ≠ 0 → Readable (t.revents i)

instance (s : Server) (t : Turn) : Decidable (PollReports s t) :=
  inferInstanceAs (Decidable (∀ i ≤ s.maxi, _))

instance (s : Server) (t : Turn) : Decidable (Unused s t) :=
  inferInstanceAs (Decidable (_ ∧ ∀ i ≤ s.maxi, _))

/-- The only turn in which the scan could go wrong: a connection is put into an entry that no
`Poll` has seen, what is in its `revents` looks like an event, and `nready` does not end the
scan before, because `Poll` has counted a client that is not read.
-/
structure ReadsStale (garbage : Nat → Pollfd) (s : Server) (t : Turn) : Prop where
  accepts : t.revents 0 &&& POLLRDNORM ≠ 0
  full : ∀ i, 1 ≤ i → i ≤ s.maxi → 0 ≤ (s.client i).fd
  room : s.maxi + 1 < openMax
  unread : ∃ i, 1 ≤ i ∧ i ≤ s.maxi ∧ t.revents i ≠ 0 ∧ ¬ Readable (t.revents i)
  survives : ∀ i, 1 ≤ i → i ≤ s.maxi → Readable (t.revents i)
    → t.outcome (s.client i).fd ≠ .failed
  stale : Readable (garbage (s.maxi + 1)).revents

-----------------------------------------------------------------------------------------
-- What a scan reads
-----------------------------------------------------------------------------------------

/-- The scan does not pass over the entry. -/
def Ready (client : Nat → Pollfd) (i : Nat) : Prop :=
  0 ≤ (client i).fd ∧ Readable (client i).revents

instance (client : Nat → Pollfd) (i : Nat) : Decidable (Ready client i) :=
  inferInstanceAs (Decidable (_ ∧ _))

/-- The descriptors of the entries that the scan does not pass over. -/
def readyFds (client : Nat → Pollfd) (slots : List Nat) : List Int :=
  (slots.filter fun i => Ready client i).map fun i => (client i).fd

/-- The reads up to one that ends the process. -/
def untilFailed (outcome : Int → Outcome) : List Int → List Int
  | [] => []
  | fd :: rest => fd :: if outcome fd = .failed then [] else untilFailed outcome rest

variable {openMax} {garbage : Nat → Pollfd} {outcome : Int → Outcome}
  {client client' : Nat → Pollfd} {slots : List Nat} {i n : Nat} {s s' : Server} {t : Turn}

/-- The clients before a failure are among all. -/
theorem untilFailed_sublist (outcome : Int → Outcome) (fds : List Int)
    : (untilFailed outcome fds).Sublist fds := by
  induction fds with
  | nil => exact .slnil
  | cons fd rest ih =>
      rw [untilFailed]
      split
      · exact (List.nil_sublist rest).cons_cons fd
      · exact ih.cons_cons fd

/-- The last of several descriptors is read when no read before it ends the process. -/
theorem mem_untilFailed {fds : List Int} {fd : Int} (new : fd ∉ fds)
    : fd ∈ untilFailed outcome (fds ++ [fd]) ↔ ∀ other ∈ fds, outcome other ≠ .failed := by
  induction fds with
  | nil => simp [untilFailed]
  | cons other rest ih =>
      have differs : fd ≠ other := fun same => new (by simp [same])
      have later := ih fun member => new (by simp [member])
      by_cases fails : outcome other = .failed
      · simp [untilFailed, fails, differs]
      · simp [untilFailed, fails, differs, later]

/-- Other entries do not matter to the ready clients. -/
theorem readyFds_congr (same : ∀ i ∈ slots, client' i = client i)
    : readyFds client' slots = readyFds client slots := by
  have filter : (slots.filter fun i => Ready client' i) = slots.filter fun i => Ready client i :=
    List.filter_congr fun i member => by
      simp only [Ready, same i member]
      rfl
  rw [readyFds, filter]
  exact List.map_congr_left fun i member => by rw [same i (List.mem_filter.mp member).1]

/-- The ready clients of slots that start with one. -/
theorem readyFds_cons (client : Nat → Pollfd) (i : Nat) (slots : List Nat)
    : readyFds client (i :: slots)
        = if Ready client i then (client i).fd :: readyFds client slots
          else readyFds client slots := by
  by_cases ready : Ready client i <;> simp [readyFds, ready]

/-- The ready clients of two parts. -/
theorem readyFds_append (client : Nat → Pollfd) (front slots : List Nat)
    : readyFds client (front ++ slots) = readyFds client front ++ readyFds client slots := by
  simp [readyFds]

/-- A read that does not end the process leaves the other entries. -/
theorem visit_some (visited : visit outcome client i = some client')
    : outcome (client i).fd ≠ .failed ∧ ∀ j, j ≠ i → client' j = client j := by
  unfold visit at visited
  split at visited <;> rename_i answer <;> cases visited
  · exact ⟨by simp [answer], fun j _ => rfl⟩
  · exact ⟨by simp [answer], fun j other => Function.update_of_ne other ..⟩
  · exact ⟨by simp [answer], fun j other => Function.update_of_ne other ..⟩

/-- A visit ends the server only where a read fails. -/
theorem visit_none (ends : visit outcome client i = none)
    : outcome (client i).fd = .failed := by
  unfold visit at ends
  split at ends <;> first | assumption | cases ends

/-- The scan reads from the ready entries in order, as many as `nready` has it, but at least
one, and ends early when the process does. An entry that it closes is not looked at again.
-/
theorem scan_reads (nodup : slots.Nodup) (client : Nat → Pollfd) (nready : Nat)
    : (scan outcome slots client nready).2
        = untilFailed outcome ((readyFds client slots).take (max 1 nready)) := by
  induction slots generalizing client nready with
  | nil => simp [scan, readyFds, untilFailed]
  | cons i rest ih =>
      obtain ⟨outside, nodup⟩ := List.nodup_cons.mp nodup
      rw [scan, readyFds_cons]
      by_cases free : (client i).fd < 0
      · have passed : ¬ Ready client i := fun ready => absurd ready.1 (by omega)
        rw [if_pos free, if_neg passed, ih nodup]
      by_cases readable : Readable (client i).revents
      · have ready : Ready client i := ⟨by omega, readable⟩
        rw [if_neg free, if_pos readable, if_pos ready]
        cases visited : visit outcome client i with
        | none =>
            have fails := visit_none visited
            obtain ⟨rounds, enough⟩ : ∃ rounds, max 1 nready = rounds + 1 :=
              ⟨max 1 nready - 1, by omega⟩
            simp [enough, untilFailed, fails]
        | some client' =>
            obtain ⟨continues, others⟩ := visit_some visited
            have rests : readyFds client' rest = readyFds client rest :=
              readyFds_congr fun j member => others j fun same => outside (same ▸ member)
            by_cases last : nready - 1 ≤ 0
            · rw [show max 1 nready = 1 by omega]
              simp [last, untilFailed]
            · rw [show max 1 nready = max 1 (nready - 1) + 1 by omega]
              simp [last, untilFailed, continues, ih nodup, rests]
      · have passed : ¬ Ready client i := fun ready => readable ready.2
        rw [if_neg free, if_neg readable, if_neg passed, ih nodup]

/-- The scan leaves the entries that it does not look at. -/
theorem scan_client (scanned : (scan outcome slots client n).1 = some client')
    : ∀ j, j ∉ slots → client' j = client j := by
  induction slots generalizing client n with
  | nil =>
      cases scanned
      exact fun _ _ => rfl
  | cons i rest ih =>
      intro j outside
      have notI : j ≠ i := fun same => outside (by simp [same])
      have notRest : j ∉ rest := fun member => outside (by simp [member])
      rw [scan] at scanned
      split at scanned
      · exact ih scanned j notRest
      split at scanned
      · split at scanned
        · cases scanned
        · next client₁ visited =>
            have same := (visit_some visited).2 j notI
            split at scanned
            · cases scanned
              exact same
            · exact (ih scanned j notRest).trans same
      · exact ih scanned j notRest

-----------------------------------------------------------------------------------------
-- One turn
-----------------------------------------------------------------------------------------

/-- No entry behind `maxi` has a descriptor, and none has been through a `Poll`. -/
structure Inv (openMax : Nat) (garbage : Nat → Pollfd) (s : Server) : Prop where
  listening : 0 ≤ (s.client 0).fd
  free : ∀ i, s.maxi < i → i < openMax → (s.client i).fd < 0
  unset : ∀ i, s.maxi < i → (s.client i).revents = (garbage i).revents

/-- `poll` leaves the descriptors alone. -/
@[simp]
theorem poll_fd (s : Server) (t : Turn) (i : Nat)
    : (((s.poll t).1.client i).fd) = (s.client i).fd := by
  simp only [Server.poll]
  split <;> rfl

/-- `poll` leaves the largest index alone. -/
@[simp]
theorem poll_maxi (s : Server) (t : Turn) : (s.poll t).1.maxi = s.maxi := rfl

/-- `poll` reports the events of a descriptor in use. -/
theorem poll_revents (low : i ≤ s.maxi) (used : 0 ≤ (s.client i).fd)
    : ((s.poll t).1.client i).revents = t.revents i := by
  simp only [Server.poll, if_pos low, if_neg (show ¬ (s.client i).fd < 0 by omega)]

/-- `poll` reports nothing for a free entry. -/
theorem poll_revents_free (low : i ≤ s.maxi) (free : (s.client i).fd < 0)
    : ((s.poll t).1.client i).revents = 0 := by
  simp only [Server.poll, if_pos low, if_pos free]

/-- `poll` leaves the entries behind the largest index alone. -/
theorem poll_revents_behind (behind : s.maxi < i)
    : ((s.poll t).1.client i).revents = (s.client i).revents := by
  simp only [Server.poll, if_neg (show ¬ i ≤ s.maxi by omega)]

/-- An entry without events is not readable. -/
theorem not_readable_zero : ¬ Readable 0 := by decide

/-- The entries that Poll has found ready are those it has reported. -/
theorem ready_poll_iff (low : i ≤ s.maxi)
    : Ready (s.poll t).1.client i ↔ 0 ≤ (s.client i).fd ∧ Readable (t.revents i) := by
  rcases Int.lt_or_le (s.client i).fd 0 with free | used
  · simp only [Ready, poll_fd, poll_revents_free low free, not_readable_zero, and_false, false_iff]
    exact fun ready => absurd ready.1 (by omega)
  · simp [Ready, poll_revents low used]

/-- What is read from entries as `Poll` has left them has been reported. -/
theorem readyFds_poll {fd : Int} (inside : ∀ i ∈ slots, i ≤ s.maxi)
    (member : fd ∈ readyFds (s.poll t).1.client slots)
    : Reported s t fd := by
  obtain ⟨i, listed, rfl⟩ := List.mem_map.mp member
  obtain ⟨visited, ready⟩ := List.mem_filter.mp listed
  have low := inside i visited
  refine ⟨i, low, (poll_fd s t i).symm, ((ready_poll_iff low).mp (of_decide_eq_true ready)).2⟩

/-- A scan reads some of the ready entries. -/
theorem scan_sublist (s : Server) (t : Turn) (nready : Nat)
    : (s.scan t nready).2.Sublist (readyFds s.client (List.range' 1 s.maxi)) := by
  rw [Server.scan, scan_reads List.nodup_range']
  exact (untilFailed_sublist _ _).trans (List.take_sublist _ _)

/-- The entries that `Poll` counts. -/
def counted (s : Server) (t : Turn) : List Nat :=
  (List.range' 1 s.maxi).filter fun i => ((s.poll t).1.client i).revents ≠ 0

/-- The listening descriptor is one of those that `Poll` counts. -/
theorem poll_nready (ready : ((s.poll t).1.client 0).revents ≠ 0)
    : (s.poll t).2 = (counted s t).length + 1 := by
  have count : (s.poll t).2 = ((List.range (s.maxi + 1)).filter fun i =>
      ((s.poll t).1.client i).revents ≠ 0).length := rfl
  rw [count, List.range_eq_range', List.range'_succ, List.filter_cons_of_pos (by simpa using ready)]
  rfl

/-- `Poll` counts more clients than the scan would read exactly when it counts one that is not
read.
-/
theorem readyFds_lt_counted
    : (readyFds (s.poll t).1.client (List.range' 1 s.maxi)).length < (counted s t).length
        ↔ ∃ i, 1 ≤ i ∧ i ≤ s.maxi ∧ ((s.poll t).1.client i).revents ≠ 0
          ∧ ¬ Ready (s.poll t).1.client i := by
  have again : (List.range' 1 s.maxi).filter (fun i => Ready (s.poll t).1.client i)
      = (counted s t).filter fun i => Ready (s.poll t).1.client i := by
    rw [counted, List.filter_filter]
    refine List.filter_congr fun i _ => ?_
    by_cases ready : Ready (s.poll t).1.client i
    · have some : ((s.poll t).1.client i).revents ≠ 0 := fun none =>
        not_readable_zero (none ▸ ready.2)
      simp [ready, some]
    · simp [ready]
  rw [readyFds, List.length_map, again, List.length_filter_lt_length_iff_exists]
  simp only [counted, List.mem_filter, List.mem_range'_1, decide_eq_true_eq]
  refine exists_congr fun i => ⟨fun h => ⟨by omega, by omega, h.1.2, h.2⟩, fun h => ?_⟩
  exact ⟨⟨⟨h.1, by omega⟩, h.2.2.1⟩, h.2.2.2⟩

/-- The ready clients are counted. -/
theorem readyFds_le_counted
    : (readyFds (s.poll t).1.client (List.range' 1 s.maxi)).length ≤ (counted s t).length := by
  rw [readyFds, List.length_map]
  refine List.Sublist.length_le (List.monotone_filter_right _ fun i ready => ?_)
  have both : Ready (s.poll t).1.client i := of_decide_eq_true ready
  exact decide_eq_true fun none => not_readable_zero (none ▸ both.2)

/-- A turn that puts no connection into an entry behind `maxi` reads what has been reported. -/
theorem readsReported_of_old (i : Nat) (low : i ≤ s.maxi) (free : (s.client i).fd < 0)
    (nready : Nat) {fd : Int}
    (member : fd ∈ (((s.poll t).1.add i t.connfd).scan t nready).2)
    : Reported s t fd := by
  have bound : ((s.poll t).1.add i t.connfd).maxi = s.maxi := by
    simp [Server.add, low]
  have listed := (scan_sublist _ t nready).subset member
  rw [bound] at listed
  obtain ⟨j, found, rfl⟩ := List.mem_map.mp listed
  obtain ⟨visited, ready⟩ := List.mem_filter.mp found
  have ready : Ready ((s.poll t).1.add i t.connfd).client j := of_decide_eq_true ready
  have inside : j ≤ s.maxi := by
    have := List.mem_range'_1.mp visited
    omega
  by_cases same : j = i
  · subst same
    have stale := ready.2
    simp only [Server.add, Function.update_self, poll_revents_free low free] at stale
    exact absurd stale not_readable_zero
  · have entry : ((s.poll t).1.add i t.connfd).client j = (s.poll t).1.client j :=
      Function.update_of_ne same ..
    rw [entry]
    rw [Ready, entry] at ready
    exact ⟨j, inside, (poll_fd s t j).symm, ((ready_poll_iff inside).mp ready).2⟩

/-- What a scan reads that meets a connection in the entry behind `maxi`. -/
theorem scan_new_reads (unused : 0 ≤ t.connfd) (nready : Nat)
    : (((s.poll t).1.add (s.maxi + 1) t.connfd).scan t nready).2
        = untilFailed t.outcome ((readyFds (s.poll t).1.client (List.range' 1 s.maxi)
          ++ if Readable (s.client (s.maxi + 1)).revents then [t.connfd] else []).take
            (max 1 nready)) := by
  have bound : ((s.poll t).1.add (s.maxi + 1) t.connfd).maxi = s.maxi + 1 := by
    simp [Server.add]
  have old : readyFds ((s.poll t).1.add (s.maxi + 1) t.connfd).client (List.range' 1 s.maxi)
      = readyFds (s.poll t).1.client (List.range' 1 s.maxi) := by
    refine readyFds_congr fun j member => Function.update_of_ne ?_ ..
    have := List.mem_range'_1.mp member
    omega
  have new : readyFds ((s.poll t).1.add (s.maxi + 1) t.connfd).client [1 + s.maxi]
      = if Readable (s.client (s.maxi + 1)).revents then [t.connfd] else [] := by
    have behind := poll_revents_behind (t := t) (Nat.lt_succ_self s.maxi)
    rw [readyFds_cons, Nat.add_comm 1]
    simp only [Server.add, Ready, Function.update_self, unused, true_and, Nat.succ_eq_add_one,
      behind]
    rfl
  rw [Server.scan, scan_reads List.nodup_range', bound, List.range'_1_concat, readyFds_append, old,
    new]

/-- The descriptor of a new connection is not one that `Poll` has reported. -/
theorem Unused.not_reported (unused : Unused s t) : ¬ Reported s t t.connfd := by
  rintro ⟨i, low, same, -⟩
  exact unused.2 i low same

/-- The entry that a new connection is put into is one that `Poll` has seen, or the next one. -/
theorem freeEntry_cases (inv : Inv openMax garbage s) (t : Turn)
    : ((s.poll t).1.freeEntry openMax = none ∧ openMax ≤ s.maxi + 1)
      ∨ ∃ i, (s.poll t).1.freeEntry openMax = some i ∧ (s.client i).fd < 0
        ∧ ((1 ≤ i ∧ i ≤ s.maxi) ∨ i = s.maxi + 1 ∧ s.maxi + 1 < openMax
          ∧ ∀ j, 1 ≤ j → j ≤ s.maxi → 0 ≤ (s.client j).fd) := by
  cases found : (s.poll t).1.freeEntry openMax with
  | none =>
      refine .inl ⟨rfl, ?_⟩
      have used := List.find?_range'_eq_none.mp found
      simp only [poll_fd, Bool.not_eq_true', decide_eq_false_iff_not] at used
      by_contra room
      exact used (s.maxi + 1) (by omega) (by omega) (inv.free (s.maxi + 1) (by omega) (by omega))
  | some i =>
      obtain ⟨free, inside, before⟩ := List.find?_range'_eq_some.mp found
      simp only [poll_fd, decide_eq_true_eq, Bool.not_eq_true', decide_eq_false_iff_not]
        at free before
      have range := List.mem_range'_1.mp inside
      refine .inr ⟨i, rfl, free, ?_⟩
      by_cases low : i ≤ s.maxi
      · exact .inl ⟨range.1, low⟩
      · have first : i ≤ s.maxi + 1 := by
          by_contra later
          exact before (s.maxi + 1) (by omega) (by omega)
            (inv.free (s.maxi + 1) (by omega) (by omega))
        refine .inr ⟨by omega, by omega, fun j one inside => ?_⟩
        have := before j one (by omega)
        omega

/-- Where every entry is in use, no read ends the process before the last entry exactly when
none of the reported clients does.
-/
theorem survives_iff (full : ∀ j, 1 ≤ j → j ≤ s.maxi → 0 ≤ (s.client j).fd)
    : (∀ fd ∈ readyFds (s.poll t).1.client (List.range' 1 s.maxi), t.outcome fd ≠ .failed)
        ↔ ∀ i, 1 ≤ i → i ≤ s.maxi → Readable (t.revents i)
          → t.outcome (s.client i).fd ≠ .failed := by
  constructor
  · intro all i one low readable
    have listed : i ∈ List.range' 1 s.maxi := List.mem_range'_1.mpr ⟨one, by omega⟩
    have ready := (ready_poll_iff low).mpr ⟨full i one low, readable⟩
    rw [← poll_fd s t i]
    exact all _ (List.mem_map.mpr ⟨i, List.mem_filter.mpr ⟨listed, decide_eq_true ready⟩, rfl⟩)
  · intro all fd member
    obtain ⟨i, found, rfl⟩ := List.mem_map.mp member
    obtain ⟨listed, ready⟩ := List.mem_filter.mp found
    have range := List.mem_range'_1.mp listed
    have low : i ≤ s.maxi := by omega
    rw [poll_fd]
    exact all i range.1 low ((ready_poll_iff low).mp (of_decide_eq_true ready)).2

/-- Where every entry is in use, `Poll` counts a client that is not read exactly when it
reports only other events for one.
-/
theorem unread_iff (full : ∀ j, 1 ≤ j → j ≤ s.maxi → 0 ≤ (s.client j).fd)
    : (readyFds (s.poll t).1.client (List.range' 1 s.maxi)).length < (counted s t).length
        ↔ ∃ i, 1 ≤ i ∧ i ≤ s.maxi ∧ t.revents i ≠ 0 ∧ ¬ Readable (t.revents i) := by
  rw [readyFds_lt_counted]
  refine exists_congr fun i => and_congr_right fun one => and_congr_right fun low => ?_
  rw [poll_revents low (full i one low), ready_poll_iff low]
  simp [full i one low]

/-- The scan after a connection was put into the entry behind `maxi`. -/
theorem readsReported_new (inv : Inv openMax garbage s) (unused : Unused s t)
    (accepts : t.revents 0 &&& POLLRDNORM ≠ 0) (room : s.maxi + 1 < openMax)
    (full : ∀ j, 1 ≤ j → j ≤ s.maxi → 0 ≤ (s.client j).fd)
    (clients : 0 < (counted s t).length)
    : (∀ fd ∈ (((s.poll t).1.add (s.maxi + 1) t.connfd).scan t (counted s t).length).2,
          Reported s t fd)
        ↔ ¬ ReadsStale openMax garbage s t := by
  have reported : ∀ fd ∈ readyFds (s.poll t).1.client (List.range' 1 s.maxi), Reported s t fd := by
    refine fun fd member => readyFds_poll (fun i inside => ?_) member
    have := List.mem_range'_1.mp inside
    omega
  have survive := survives_iff (t := t) full
  have unread := unread_iff (t := t) full
  have le := readyFds_le_counted (s := s) (t := t)
  rw [scan_new_reads unused.1, Nat.max_eq_right clients, inv.unset _ (Nat.lt_succ_self _)]
  generalize readyFds (s.poll t).1.client (List.range' 1 s.maxi) = old at *
  by_cases stale : Readable (garbage (s.maxi + 1)).revents
  · rw [if_pos stale]
    by_cases more : old.length < (counted s t).length
    · have whole : (old ++ [t.connfd]).take (counted s t).length = old ++ [t.connfd] :=
        List.take_of_length_le (by simp; omega)
      have new : t.connfd ∉ old := fun member => unused.not_reported (reported _ member)
      have broken : ReadsStale openMax garbage s t ↔ ∀ fd ∈ old, t.outcome fd ≠ .failed :=
        ⟨fun h => survive.mpr h.survives, fun h =>
          ⟨accepts, full, room, unread.mp more, survive.mp h, stale⟩⟩
      rw [whole, broken, ← mem_untilFailed new]
      refine ⟨fun all read => unused.not_reported (all _ read), fun unreadNew fd member => ?_⟩
      rcases List.mem_append.mp ((untilFailed_sublist _ _).subset member) with known | last
      · exact reported fd known
      · obtain rfl : fd = t.connfd := by simpa using last
        exact absurd member unreadNew
    · have cut : (old ++ [t.connfd]).take (counted s t).length = old := by
        rw [show (counted s t).length = old.length by omega, List.take_left]
      rw [cut]
      refine iff_of_true (fun fd member => ?_) fun broken => more (unread.mpr broken.unread)
      exact reported fd ((untilFailed_sublist _ _).subset member)
  · rw [if_neg stale, List.append_nil]
    refine iff_of_true (fun fd member => ?_) fun broken => stale broken.stale
    exact reported fd (((untilFailed_sublist _ _).trans (List.take_sublist _ _)).subset member)

/-- In one turn only reported descriptors are read, except when the scan goes wrong. -/
theorem readsReported_iff (inv : Inv openMax garbage s) (unused : Unused s t)
    : ReadsReported openMax s t ↔ ¬ ReadsStale openMax garbage s t := by
  have listening : ((s.poll t).1.client 0).revents = t.revents 0 :=
    poll_revents (Nat.zero_le _) inv.listening
  by_cases accepts : t.revents 0 &&& POLLRDNORM ≠ 0
  · have nready : (s.poll t).2 = (counted s t).length + 1 := by
      refine poll_nready ?_
      rw [listening]
      exact fun none => accepts (by rw [none, Nat.zero_and])
    rcases freeEntry_cases inv t with ⟨found, noRoom⟩ | ⟨i, found, free, place⟩
    · have turn : s.turn openMax t = (none, []) := by
        simp only [Server.turn, listening, if_pos accepts, found]
      rw [ReadsReported, turn]
      refine iff_of_true (by simp) fun stale => ?_
      have := stale.room
      omega
    have turn : s.turn openMax t = if (counted s t).length ≤ 0
        then (some ((s.poll t).1.add i t.connfd), [])
        else ((s.poll t).1.add i t.connfd).scan t (counted s t).length := by
      simp only [Server.turn, listening, if_pos accepts, found, nready, Nat.add_sub_cancel]
    rw [ReadsReported, turn]
    rcases place with ⟨one, low⟩ | ⟨rfl, room, full⟩
    · refine iff_of_true (fun fd member => ?_) fun stale => ?_
      · split at member
        · simp at member
        · exact readsReported_of_old i low free _ member
      · have := stale.full i one low
        omega
    · split
      · next idle =>
          refine iff_of_true (by simp) fun stale => ?_
          have := (unread_iff full).mpr stale.unread
          omega
      · next busy => exact readsReported_new inv unused accepts room full (by omega)
  · have turn : s.turn openMax t = (s.poll t).1.scan t (s.poll t).2 := by
      simp only [Server.turn, listening, if_neg accepts]
    rw [ReadsReported, turn]
    refine iff_of_true (fun fd member => ?_) (fun stale => accepts stale.accepts)
    refine readyFds_poll (fun i inside => ?_) ((scan_sublist _ t _).subset member)
    have := List.mem_range'_1.mp inside
    simp only [poll_maxi] at this
    omega

-----------------------------------------------------------------------------------------
-- All turns
-----------------------------------------------------------------------------------------

/-- The invariant holds at the start. -/
theorem start_inv (openMax : Nat) (garbage : Nat → Pollfd) (listenfd : Nat)
    : Inv openMax garbage (start garbage listenfd) where
  listening := by simp [start]
  free i behind _ := by simp [start, Nat.pos_iff_ne_zero.mp behind]
  unset i behind := by simp [start, Nat.pos_iff_ne_zero.mp behind]

/-- `poll` keeps the invariant. -/
theorem Inv.poll (inv : Inv openMax garbage s) (t : Turn) : Inv openMax garbage (s.poll t).1 where
  listening := by simpa using inv.listening
  free i behind room := by simpa using inv.free i behind room
  unset i behind := (poll_revents_behind (s := s) behind).trans (inv.unset i behind)

/-- A new client keeps the invariant. -/
theorem Inv.add (inv : Inv openMax garbage s) (one : 1 ≤ i) (connfd : Int)
    : Inv openMax garbage (s.add i connfd) where
  listening := by
    have other : 0 ≠ i := by omega
    simpa [Server.add, other] using inv.listening
  free j behind room := by
    simp only [Server.add] at behind
    simpa [Server.add, show j ≠ i by omega] using inv.free j (by omega) room
  unset j behind := by
    simp only [Server.add] at behind
    simpa [Server.add, show j ≠ i by omega] using inv.unset j (by omega)

/-- The scan keeps the invariant. -/
theorem Inv.scan (inv : Inv openMax garbage s) {nready : Nat}
    (scanned : (s.scan t nready).1 = some s')
    : Inv openMax garbage s' := by
  simp only [Server.scan, Option.map_eq_some_iff] at scanned
  obtain ⟨client, scanned, rfl⟩ := scanned
  have outside : ∀ j, j = 0 ∨ s.maxi < j → client j = s.client j := by
    refine fun j out => scan_client scanned j fun member => ?_
    have := List.mem_range'_1.mp member
    omega
  refine ⟨?_, fun j behind room => ?_, fun j behind => ?_⟩
  · exact (congrArg Pollfd.fd (outside 0 (.inl rfl))).symm ▸ inv.listening
  · exact (congrArg Pollfd.fd (outside j (.inr behind))).symm ▸ inv.free j behind room
  · exact (congrArg Pollfd.revents (outside j (.inr behind))).trans (inv.unset j behind)

/-- Every turn keeps the invariant. -/
theorem Inv.step (stepped : s.step openMax t = some s') (inv : Inv openMax garbage s)
    : Inv openMax garbage s' := by
  have polled := inv.poll t
  simp only [Server.step, Server.turn] at stepped
  split at stepped
  · cases found : (s.poll t).1.freeEntry openMax with
    | none => simp [found] at stepped
    | some i =>
        have one : 1 ≤ i := (List.mem_range'_1.mp (List.mem_of_find?_eq_some found)).1
        simp only [found] at stepped
        split at stepped
        · cases stepped
          exact polled.add one _
        · exact (polled.add one _).scan stepped
  · exact polled.scan stepped

/-- In a turn in which every client that `poll` reports has something to read, the scan ends
before an entry that no `Poll` has seen.
-/
theorem PollReports.readsReported (inv : Inv openMax garbage s) (unused : Unused s t)
    (reports : PollReports s t)
    : ReadsReported openMax s t := by
  refine (readsReported_iff inv unused).mpr fun stale => ?_
  obtain ⟨i, one, low, reported, idle⟩ := stale.unread
  exact idle (reports i low one (stale.full i one low) reported)

/-- In every run of the server, whatever the array was made from, only descriptors are read that
the latest `Poll` has reported.
-/
theorem run_readsReported (openMax : Nat) (garbage : Nat → Pollfd) (listenfd : Nat)
    (turns : List Turn)
    (system : EveryStep (Server.step openMax) (fun s t => Unused s t ∧ PollReports s t)
      (start garbage listenfd) turns)
    : EveryStep (Server.step openMax) (fun s t => ReadsReported openMax s t)
        (start garbage listenfd) turns :=
  everyStep_mono_of_invariant Inv.step
    (fun _ _ inv answers => answers.2.readsReported inv answers.1)
    (start_inv openMax garbage listenfd) system

/-- An array whose entries look as if there were something to read from each. -/
def dirty (_ : Nat) : Pollfd := ⟨0, 0, POLLRDNORM⟩

/-- A client connects. -/
def connect : Turn :=
  ⟨fun i => if i = 0 then POLLRDNORM else 0, 4, fun _ => .data⟩

/-- The client sends something, and another one connects. -/
def both : Turn :=
  ⟨fun i => if i ≤ 1 then POLLRDNORM else 0, 5, fun _ => .data⟩

/-- The first client closes its connection, and that of the second is reset. -/
def depart : Turn :=
  ⟨fun i => if i = 1 then POLLRDNORM ||| POLLHUP else if i = 2 then POLLERR ||| POLLHUP else 0, 6,
    fun fd => if fd = 4 then .closed else .reset⟩

/-- Witness: in the second turn the new connection is put into an entry with stale `revents`. -/
theorem run_readsReported_dirty
    : EveryStep (Server.step 256) (fun s t => ReadsReported 256 s t)
        (start dirty 3) [connect, both, depart] :=
  run_readsReported 256 dirty 3 [connect, both, depart] (by decide +kernel)

end Minions.Unp.PollServer
