import Minions.Opend.Clients
import Minions.Logic.Events

/-! The open server's main loop over `poll`: `loop.poll.c`.
The loop keeps the descriptors to poll packed at the start of `pollfd[]`, beside the table of
clients. A read or a write outside an array leads to `fault`, the `log_quit` of `client_del` to
`quit`; other failing calls are left out.
-/

namespace Minions.Opend.PollLoop

open Minions.Logic

def nAlloc : Nat := 10

/-- `struct pollfd`, with `POLLIN` and `POLLHUP` of `revents`. -/
structure Pollfd where
  fd : Int
  events : Bool
  pollin : Bool
  pollhup : Bool
  deriving DecidableEq

/-- An entry with which `malloc` and `grow_pollfd` fill the array. -/
def Pollfd.blank : Pollfd := { fd := -1, events := true, pollin := false, pollhup := false }

/-- Where `loop` is: before `poll`, before `serv_accept`, or in the loop over the clients. -/
inductive Loc
  | polling
  | accepting
  | scanning (i : Nat)
  | fault
  | quit
  deriving DecidableEq

/-- The variables of `loop`, the table of clients, and what has happened so far. -/
structure Server where
  client : List Client
  pollfd : List Pollfd
  numfd : Nat
  maxfd : Nat
  listenfd : Int
  loc : Loc
  /-- The connections that are accepted and not closed, with their user ids. -/
  opened : List (Int × Nat)
  /-- The clients that the last `poll` reported. -/
  reported : List Int
  /-- The clients read or closed since then, in order. -/
  handled : List Int
  attributed : List Attribution

/-- Before the first `poll`. -/
def start (listenfd : Int) : Server where
  client := ((clientAdd [] listenfd 0).map Prod.snd).getD []
  pollfd := { Pollfd.blank with fd := listenfd } :: List.replicate (nAlloc - 1) .blank
  numfd := 1
  maxfd := nAlloc
  listenfd := listenfd
  loc := .polling
  opened := []
  reported := []
  handled := []
  attributed := []

/-- What `poll` reported of an entry. -/
def Pollfd.ready (e : Pollfd) : Bool := e.pollin || e.pollhup

/-- The clients of a part of the array that `poll` reported. -/
def ready (entries : List Pollfd) : List Int := (entries.filter Pollfd.ready).map Pollfd.fd

/-- `poll` sets `revents` of the first `numfd` entries. -/
def setRevents (numfd : Nat) (report : Nat → Bool × Bool) (i : Nat) (e : Pollfd) : Pollfd :=
  if i < numfd then { e with pollin := (report i).1, pollhup := (report i).2 } else e

def poll (s : Server) (report : Nat → Bool × Bool) : Server :=
  let pollfd := s.pollfd.mapIdx (setRevents s.numfd report)
  let s := { s with pollfd, reported := ready ((pollfd.take s.numfd).drop 1), handled := [] }
  match s.pollfd[0]? with
  | none => { s with loc := .fault }
  | some e => { s with loc := if e.pollin then .accepting else .scanning 1 }

/-- `pollfd = grow_pollfd(pollfd, &maxfd)` -/
def growPollfd (s : Server) : Server :=
  { s with pollfd := s.pollfd ++ List.replicate nAlloc .blank, maxfd := s.maxfd + nAlloc }

/-- `serv_accept` returns a connection on `clifd` from a client of user `uid`. -/
def accept (s : Server) (clifd : Int) (uid : Nat) : Server :=
  match clientAdd s.client clifd uid with
  | none => { s with loc := .fault }
  | some (_, client) =>
      let s := { s with client, opened := s.opened ++ [(clifd, uid)] }
      let s := if s.numfd = s.maxfd then growPollfd s else s
      if s.numfd < s.pollfd.length then
        { s with
          pollfd := s.pollfd.set s.numfd
            { fd := clifd, events := true, pollin := false, pollhup := false }
          numfd := s.numfd + 1
          loc := .scanning 1 }
      else { s with loc := .fault }

/-- The client on a descriptor is read or closed, with the user id of an entry of `client[]`. -/
def handle (s : Server) (fd : Int) (c : Client) : Server :=
  { s with
    attributed := s.attributed ++ [{ fd, uid := c.uid, owner := s.opened.lookup fd }]
    handled := s.handled ++ [fd] }

/-- The accepted connections without the one on a descriptor. -/
def Server.without (s : Server) (fd : Int) : List (Int × Nat) :=
  s.opened.filter fun entry => entry.1 ≠ fd

/-- The last entry takes the place of the one at index `i`, which is looked at again; a last
entry itself is dropped.
-/
def pack (s : Server) (i : Nat) : Server :=
  if i < s.numfd - 1 then
    match s.pollfd[s.numfd - 1]? with
    | none => { s with loc := .fault }
    | some last =>
        { s with pollfd := s.pollfd.set i last, numfd := s.numfd - 1, loc := .scanning i }
  else { s with numfd := s.numfd - 1, loc := .scanning (i + 1) }

/-- The branch `hungup`, for the entry `e` at index `i`. -/
def hungup (s : Server) (i : Nat) (e : Pollfd) : Server :=
  match s.client[i]? with
  | none => { s with loc := .fault }
  | some c =>
      let s := handle s e.fd c
      match clientDel s.client e.fd with
      | none => { s with loc := .quit }
      | some client => pack { s with client, opened := s.without e.fd } i

/-- `handle_request`, for the entry `e` at index `i`. -/
def request (s : Server) (i : Nat) (e : Pollfd) : Server :=
  match s.client[i]? with
  | none => { s with loc := .fault }
  | some c => { handle s e.fd c with loc := .scanning (i + 1) }

/-- The loop looks at the next client; `read` returns `nread` where it is called. -/
def scan (s : Server) (i nread : Nat) : Server :=
  if i < s.numfd then
    match s.pollfd[i]? with
    | none => { s with loc := .fault }
    | some e =>
        if e.pollhup then hungup s i e
        else if e.pollin then
          if nread = 0 then hungup s i e else request s i e
        else { s with loc := .scanning (i + 1) }
  else { s with loc := .polling }

inductive Event
  /-- `poll` reports `POLLIN` and `POLLHUP` of each entry. -/
  | poll (report : Nat → Bool × Bool)
  | accept (clifd : Int) (uid : Nat)
  | scan (nread : Nat)

/-- One step. `serv_accept` returns a descriptor that is not in use. -/
def step (s : Server) : Event → Option Server
  | .poll report =>
      match s.loc with
      | .polling => some (poll s report)
      | _ => none
  | .accept clifd uid =>
      match s.loc with
      | .accepting =>
          if 0 ≤ clifd ∧ clifd ≠ s.listenfd ∧ clifd ∉ s.opened.map Prod.fst then
            some (accept s clifd uid)
          else none
      | _ => none
  | .scan nread =>
      match s.loc with
      | .scanning i => some (scan s i nread)
      | _ => none

-----------------------------------------------------------------------------------------
-- What the arrays hold
-----------------------------------------------------------------------------------------

/-- The descriptors in `pollfd[1 .. numfd-1]`. -/
def Server.polled (s : Server) : List Int := ((s.pollfd.take s.numfd).drop 1).map Pollfd.fd

/-- What holds after every pass of the main loop. -/
structure Booked (s : Server) : Prop where
  distinct : s.polled.Nodup
  clients : s.polled.Perm (s.opened.map Prod.fst)
  table : ((held s.client).map Prod.fst).Perm (s.listenfd :: s.polled)
  tableOnce : ((held s.client).map Prod.fst).Nodup
  handled : s.handled.Perm s.reported
  handledOnce : s.handled.Nodup

/-- The accepted connections, with the listening socket, as `client[]` shows them. -/
def Server.expected (s : Server) : List (Int × Option Nat) :=
  (s.listenfd, some 0) :: s.opened.map fun entry => (entry.1, some entry.2)

/-- How far the pass is, where `clients` are the entries behind the first. After the last client
is gone the loop is past the end.
-/
def Server.AtLoc (s : Server) (clients : List Pollfd) : Prop :=
  match s.loc with
  | .polling => s.handled.Perm s.reported
  | .accepting => s.handled = [] ∧ s.reported = ready clients
  | .scanning i => ∃ done todo, clients = done ++ todo
      ∧ (i = done.length + 1 ∨ todo = [] ∧ done.length + 1 < i)
      ∧ (s.handled ++ ready todo).Perm s.reported
  | .fault => False
  | .quit => False

/-- The invariant: the array is the entry of `listenfd`, those of the clients, and spare ones. -/
structure Inv (s : Server) (head : Pollfd) (clients spare : List Pollfd) : Prop where
  array : s.pollfd = head :: (clients ++ spare)
  size : s.pollfd.length = s.maxfd
  numfd : s.numfd = clients.length + 1
  listen : head.fd = s.listenfd
  opened : (clients.map Pollfd.fd).Perm (s.opened.map Prod.fst)
  proper : ∀ fd ∈ s.listenfd :: s.opened.map Prod.fst, 0 ≤ fd
  distinct : (s.listenfd :: s.opened.map Prod.fst).Nodup
  table : (held s.client).Perm s.expected
  reportedOnce : s.reported.Nodup
  atLoc : s.AtLoc clients

variable {s s' : Server} {event : Event} {head : Pollfd} {clients spare : List Pollfd}

/-- The descriptors that should be polled. -/
theorem expected_fst (s : Server)
    : s.expected.map Prod.fst = s.listenfd :: s.opened.map Prod.fst := by
  simp [Server.expected]

@[simp] theorem handle_numfd (s : Server) (fd : Int) (c : Client)
    : (handle s fd c).numfd = s.numfd := rfl

/-- The ready descriptors of two parts. -/
theorem ready_append (entries more : List Pollfd)
    : ready (entries ++ more) = ready entries ++ ready more := by
  simp [ready]

/-- The ready descriptors of a list that starts with an entry. -/
theorem ready_cons (e : Pollfd) (entries : List Pollfd)
    : ready (e :: entries) = (if e.ready then [e.fd] else []) ++ ready entries := by
  unfold ready
  cases h : e.ready <;> simp [h]

/-- The ready descriptors come in the order of the entries. -/
theorem ready_sublist (entries : List Pollfd)
    : (ready entries).Sublist (entries.map Pollfd.fd) :=
  List.filter_sublist.map _

/-- The polled descriptors are those of the entries in use. -/
theorem polled_of_array (array : s.pollfd = head :: (clients ++ spare))
    (numfd : s.numfd = clients.length + 1)
    : s.polled = clients.map Pollfd.fd := by
  unfold Server.polled
  rw [array, numfd]
  simp

/-- The same under the invariant. -/
theorem Inv.polled_eq (inv : Inv s head clients spare)
    : s.polled = clients.map Pollfd.fd :=
  polled_of_array inv.array inv.numfd

/-- The table has at least as many entries as descriptors are polled. -/
theorem Inv.numfd_le_client (inv : Inv s head clients spare)
    : s.numfd ≤ s.client.length := by
  have inUse : (held s.client).length ≤ s.client.length := by
    simp only [held, List.length_map]
    exact List.length_filter_le _ _
  have counts := inv.table.length_eq
  have polled := inv.opened.length_eq
  simp only [Server.expected, List.length_cons, List.length_map] at counts polled
  have := inv.numfd
  omega

-----------------------------------------------------------------------------------------
-- poll and serv_accept
-----------------------------------------------------------------------------------------

/-- `poll` changes no descriptor. -/
theorem map_fd_mapIdx {f : Nat → Pollfd → Pollfd} (same : ∀ i e, (f i e).fd = e.fd)
    (entries : List Pollfd)
    : (entries.mapIdx f).map Pollfd.fd = entries.map Pollfd.fd := by
  induction entries generalizing f with
  | nil => rfl
  | cons e rest ih =>
      simp only [List.mapIdx_cons, List.map_cons, same]
      rw [ih]
      exact fun i e => same (i + 1) e

/-- `poll` leaves the descriptors of the entries alone. -/
theorem setRevents_fd (numfd : Nat) (report : Nat → Bool × Bool) (i : Nat) (e : Pollfd)
    : (setRevents numfd report i e).fd = e.fd := by
  unfold setRevents
  split <;> rfl

/-- `poll` keeps the invariant. -/
theorem Inv.poll (inv : Inv s head clients spare) (report : Nat → Bool × Bool)
    : ∃ head clients spare, Inv (poll s report) head clients spare := by
  generalize hf : setRevents s.numfd report = f
  have same : ∀ i e, (f i e).fd = e.fd := hf ▸ setRevents_fd s.numfd report
  generalize hc : clients.mapIdx (fun i => f (i + 1)) = clients'
  generalize hs : spare.mapIdx (fun i => f (i + clients.length + 1)) = spare'
  have array : s.pollfd.mapIdx f = f 0 head :: (clients' ++ spare') := by
    rw [inv.array, List.mapIdx_cons, List.mapIdx_append, hc, hs]
  have count : clients'.length = clients.length := by simp [← hc]
  have live : ((s.pollfd.mapIdx f).take s.numfd).drop 1 = clients' := by
    rw [array, inv.numfd, ← count]
    simp
  have fds : clients'.map Pollfd.fd = clients.map Pollfd.fd :=
    hc ▸ map_fd_mapIdx (fun i e => same (i + 1) e) clients
  have reported : (ready clients').Nodup := by
    apply (ready_sublist _).nodup
    rw [fds, inv.opened.nodup_iff]
    exact (List.nodup_cons.mp inv.distinct).2
  have state : PollLoop.poll s report = { s with
      pollfd := f 0 head :: (clients' ++ spare')
      reported := ready clients'
      handled := []
      loc := if (f 0 head).pollin then .accepting else .scanning 1 } := by
    rw [array] at live
    unfold PollLoop.poll
    simp only [hf, array, live, List.getElem?_cons_zero]
  refine ⟨f 0 head, clients', spare', ?_⟩
  rw [state]
  constructor
  case array => rfl
  case size =>
    show (f 0 head :: (clients' ++ spare')).length = s.maxfd
    rw [← array, List.length_mapIdx, inv.size]
  case numfd =>
    show s.numfd = clients'.length + 1
    rw [inv.numfd, count]
  case listen => exact (same 0 head).trans inv.listen
  case opened =>
    rw [fds]
    exact inv.opened
  case proper => exact inv.proper
  case distinct => exact inv.distinct
  case table => exact inv.table
  case reportedOnce => exact reported
  case atLoc =>
    unfold Server.AtLoc
    cases (f 0 head).pollin
    · exact ⟨[], clients', rfl, .inl rfl, List.Perm.refl _⟩
    · exact ⟨rfl, rfl⟩

/-- The array has room for one more entry, grown where it was full. -/
theorem grow_room (array : s.pollfd = head :: (clients ++ spare))
    (size : s.pollfd.length = s.maxfd) (numfd : s.numfd = clients.length + 1)
    : ∃ e rest maxfd,
      (if s.numfd = s.maxfd then growPollfd s else s)
        = { s with pollfd := head :: (clients ++ e :: rest), maxfd }
      ∧ (head :: (clients ++ e :: rest)).length = maxfd := by
  rw [array] at size
  simp only [List.length_cons, List.length_append] at size
  split
  · next full =>
      have none : spare = [] := List.length_eq_zero_iff.mp (by omega)
      refine ⟨.blank, List.replicate (nAlloc - 1) .blank, s.maxfd + nAlloc, ?_, ?_⟩
      · unfold growPollfd
        rw [array, none]
        simp [nAlloc, List.replicate_succ]
      · simp [nAlloc]
        omega
  · next notFull =>
      cases spare with
      | nil =>
          simp only [List.length_nil] at size
          omega
      | cons e rest =>
          refine ⟨e, rest, s.maxfd, ?_, ?_⟩
          · rw [← array]
          · simpa using size

/-- An accepted client is stored behind the others in `pollfd[]`, unreported. -/
theorem Inv.accept_eq (inv : Inv s head clients spare) {clifd : Int} {uid i : Nat}
    {client : List Client} (added : clientAdd s.client clifd uid = some (i, client))
    : ∃ rest maxfd, accept s clifd uid = { s with
        client
        opened := s.opened ++ [(clifd, uid)]
        pollfd := head :: ((clients ++ [⟨clifd, true, false, false⟩]) ++ rest)
        maxfd
        numfd := s.numfd + 1
        loc := .scanning 1 } ∧ clients.length + rest.length + 2 = maxfd := by
  obtain ⟨e, rest, maxfd, grown, size⟩ :=
    grow_room (s := { s with client, opened := s.opened ++ [(clifd, uid)] })
      inv.array inv.size inv.numfd
  refine ⟨rest, maxfd, ?_, ?_⟩
  · have inside : s.numfd < (head :: (clients ++ e :: rest)).length := by
      simp [inv.numfd]
    have stored : ∀ new, (head :: (clients ++ e :: rest)).set s.numfd new
        = head :: ((clients ++ [new]) ++ rest) := by
      simp [inv.numfd]
    unfold accept
    simp only [added, grown, inside, if_true, stored]
  · simp only [List.length_cons, List.length_append] at size
    omega

/-- A new connection keeps the invariant. -/
theorem Inv.accept (inv : Inv s head clients spare) (here : s.loc = .accepting)
    {clifd : Int} (valid : 0 ≤ clifd) (notListen : clifd ≠ s.listenfd)
    (fresh : clifd ∉ s.opened.map Prod.fst) (uid : Nat)
    : ∃ clients spare, Inv (accept s clifd uid) head clients spare := by
  have at_ := inv.atLoc
  simp only [Server.AtLoc, here] at at_
  obtain ⟨handled, reported⟩ := at_
  obtain ⟨i, client, added, table⟩ := clientAdd_held s.client (show clifd ≠ -1 by omega) uid
  obtain ⟨rest, maxfd, state, size⟩ := inv.accept_eq added
  generalize hn : (⟨clifd, true, false, false⟩ : Pollfd) = new at state
  have fds : (s.opened ++ [(clifd, uid)]).map Prod.fst = s.opened.map Prod.fst ++ [clifd] := by
    simp
  refine ⟨clients ++ [new], rest, ?_⟩
  rw [state]
  constructor
  case array => rfl
  case size =>
    simp only [List.length_cons, List.length_append, List.length_nil]
    omega
  case numfd => simp [inv.numfd]
  case listen => exact inv.listen
  case opened =>
    rw [List.map_append, fds]
    exact inv.opened.append (by simp [← hn])
  case proper =>
    intro fd mem
    simp only [fds, List.mem_cons, List.mem_append, List.not_mem_nil, or_false] at mem
    rcases mem with rfl | mem | rfl
    · exact inv.proper _ (by simp)
    · exact inv.proper fd (List.mem_cons_of_mem _ mem)
    · exact valid
  case distinct =>
    show (s.listenfd :: (s.opened ++ [(clifd, uid)]).map Prod.fst).Nodup
    rw [fds, ← List.cons_append]
    refine List.nodup_append.mpr ⟨inv.distinct, List.nodup_singleton clifd, ?_⟩
    intro fd mem other single
    rw [List.mem_singleton.mp single]
    rcases List.mem_cons.mp mem with rfl | mem
    · exact fun same => notListen same.symm
    · exact fun same => fresh (same ▸ mem)
  case table =>
    apply table.trans
    apply (inv.table.cons _).trans
    unfold Server.expected
    simp only [List.map_append, List.map_cons, List.map_nil]
    exact (List.perm_append_singleton _ _).symm
  case reportedOnce => exact inv.reportedOnce
  case atLoc =>
    have idle : ready [new] = [] := by simp [ready, Pollfd.ready, ← hn]
    refine ⟨[], clients ++ [new], rfl, .inl rfl, ?_⟩
    rw [ready_append, idle, handled, reported, List.append_nil]
    exact List.Perm.refl _

-----------------------------------------------------------------------------------------
-- The loop over the clients
-----------------------------------------------------------------------------------------

variable {done todo : List Pollfd} {e : Pollfd}

/-- What is known where the loop looks at the entry `e`. -/
theorem Inv.entry (inv : Inv s head (done ++ e :: todo) spare)
    : done.length + 1 < s.numfd ∧ s.pollfd[done.length + 1]? = some e
      ∧ (∃ c, s.client[done.length + 1]? = some c) ∧ e.fd ∈ s.opened.map Prod.fst := by
  have inside : done.length + 1 < s.numfd := by
    simp [inv.numfd]
  have table := inv.numfd_le_client
  refine ⟨inside, ?_, ⟨_, List.getElem?_eq_getElem (show _ < s.client.length by omega)⟩, ?_⟩
  · rw [inv.array]
    simp
  · apply inv.opened.mem_iff.mp
    simp

/-- `client_del` finds the entry of an accepted client and leaves those of the others. -/
theorem Inv.clientDel (inv : Inv s head clients spare) {fd : Int}
    (accepted : fd ∈ s.opened.map Prod.fst)
    : ∃ client, clientDel s.client fd = some client
      ∧ (held client).Perm ((s.listenfd, some 0)
        :: (s.without fd).map fun entry => (entry.1, some entry.2)) := by
  have valid := inv.proper fd (List.mem_cons_of_mem _ accepted)
  have notListen : s.listenfd ≠ fd :=
    fun same => (List.nodup_cons.mp inv.distinct).1 (same ▸ accepted)
  have distinct := inv.distinct
  rw [← expected_fst] at distinct
  obtain ⟨client, deleted, after⟩ := clientDel_filter inv.table distinct (show fd ≠ -1 by omega) (by
    rw [expected_fst]
    exact List.mem_cons_of_mem _ accepted)
  refine ⟨client, deleted, ?_⟩
  unfold Server.expected at after
  rwa [List.filter_cons_of_pos (by simpa using notListen), List.filter_map] at after

/-- The clients without the one on a descriptor. -/
theorem without_fst (s : Server) (fd : Int)
    : (s.without fd).map Prod.fst = (s.opened.map Prod.fst).filter fun other => other ≠ fd := by
  simp [Server.without, List.filter_map, Function.comp_def]

/-- Dropping one of several distinct descriptors. -/
theorem Inv.opened_without (inv : Inv s head (done ++ e :: todo) spare)
    : ((done ++ todo).map Pollfd.fd).Perm ((s.without e.fd).map Prod.fst) := by
  have nodup : ((done ++ e :: todo).map Pollfd.fd).Nodup :=
    inv.opened.nodup_iff.mpr (List.nodup_cons.mp inv.distinct).2
  have moved : ((done ++ e :: todo).map Pollfd.fd).Perm (e.fd :: (done ++ todo).map Pollfd.fd) := by
    exact List.perm_middle.map Pollfd.fd
  have gone := (List.nodup_cons.mp (moved.nodup_iff.mp nodup)).1
  have both := (moved.symm.trans inv.opened).filter fun other => decide (other ≠ e.fd)
  rw [List.filter_cons_of_neg (by simp), ← without_fst, List.filter_eq_self.mpr] at both
  · exact both
  · intro other mem
    have : other ≠ e.fd := fun same => gone (same ▸ mem)
    simpa using this

/-- One of the clients is gone from both arrays, and the others are packed at the start. -/
theorem Inv.remove (inv : Inv s head (done ++ e :: todo) spare)
    (handled : e.ready) (waiting : (s.handled ++ ready (e :: todo)).Perm s.reported)
    {client : List Client}
    (table : (held client).Perm ((s.listenfd, some 0)
      :: (s.without e.fd).map fun entry => (entry.1, some entry.2)))
    {todo' spare' : List Pollfd} (packed : todo'.Perm todo)
    (size : spare'.length = spare.length + 1) (attributed : List Attribution)
    {i : Nat} (position : i = done.length + 1 ∨ todo' = [] ∧ done.length + 1 < i)
    : Inv { s with
        client
        opened := s.without e.fd
        handled := s.handled ++ [e.fd]
        attributed
        pollfd := head :: ((done ++ todo') ++ spare')
        numfd := s.numfd - 1
        loc := .scanning i } head (done ++ todo') spare' := by
  have fewer : ((s.without e.fd).map Prod.fst).Sublist (s.opened.map Prod.fst) :=
    List.filter_sublist.map _
  constructor
  case array => rfl
  case size =>
    have before := inv.size
    have same := packed.length_eq
    rw [inv.array] at before
    simp only [List.length_cons, List.length_append] at before ⊢
    omega
  case numfd =>
    have same := packed.length_eq
    simp only [inv.numfd, List.length_append, List.length_cons]
    omega
  case listen => exact inv.listen
  case opened => exact ((packed.append_left done).map Pollfd.fd).trans inv.opened_without
  case proper =>
    intro fd mem
    apply inv.proper
    exact (fewer.cons_cons s.listenfd).subset mem
  case distinct => exact (fewer.cons_cons s.listenfd).nodup inv.distinct
  case table => exact table
  case reportedOnce => exact inv.reportedOnce
  case atLoc =>
    have rest : (ready todo').Perm (ready todo) := (packed.filter _).map _
    refine ⟨done, todo', rfl, position, ?_⟩
    rw [ready_cons, if_pos handled, ← List.append_assoc] at waiting
    exact (rest.append_left _).trans waiting

/-- A last client is dropped. -/
theorem pack_last (array : s.pollfd = head :: ((done ++ [e]) ++ spare))
    (numfd : s.numfd = done.length + 2)
    : pack s (done.length + 1) = { s with
        pollfd := head :: ((done ++ []) ++ e :: spare)
        numfd := s.numfd - 1
        loc := .scanning (done.length + 2) } := by
  have same : head :: ((done ++ []) ++ e :: spare) = s.pollfd := by
    rw [array]
    simp
  unfold pack
  rw [if_neg (by omega), same]

/-- The last client takes the place of an earlier one. -/
theorem pack_middle {middle : List Pollfd} {last : Pollfd}
    (array : s.pollfd = head :: ((done ++ e :: (middle ++ [last])) ++ spare))
    (numfd : s.numfd = done.length + middle.length + 3)
    : pack s (done.length + 1) = { s with
        pollfd := head :: ((done ++ last :: middle) ++ last :: spare)
        numfd := s.numfd - 1
        loc := .scanning (done.length + 1) } := by
  have atEnd : s.pollfd[s.numfd - 1]? = some last := by
    have index : s.numfd - 1 = (head :: (done ++ e :: middle)).length := by
      simp [numfd]
      omega
    have split : s.pollfd = (head :: (done ++ e :: middle)) ++ last :: spare := by
      rw [array]
      simp
    rw [index, split]
    simp
  have stored : s.pollfd.set (done.length + 1) last
      = head :: ((done ++ last :: middle) ++ last :: spare) := by
    rw [array]
    simp
  unfold pack
  rw [if_pos (by omega), atEnd, ← stored]

/-- `hungup` finds the client in the table and packs the array. -/
theorem Inv.hungup_eq (inv : Inv s head (done ++ e :: todo) spare)
    : ∃ c client, s.client[done.length + 1]? = some c ∧ Opend.clientDel s.client e.fd = some client
      ∧ (held client).Perm ((s.listenfd, some 0)
        :: (s.without e.fd).map fun entry => (entry.1, some entry.2))
      ∧ hungup s (done.length + 1) e
        = pack { handle s e.fd c with client, opened := s.without e.fd } (done.length + 1) := by
  obtain ⟨-, -, ⟨c, entry⟩, accepted⟩ := inv.entry
  obtain ⟨client, deleted, table⟩ := inv.clientDel accepted
  refine ⟨c, client, entry, deleted, table, ?_⟩
  unfold hungup
  rw [entry]
  show (match Opend.clientDel s.client e.fd with | none => _ | some client => _) = _
  rw [deleted]
  rfl

/-- A connection that is closed keeps the invariant. -/
theorem Inv.hungup (inv : Inv s head (done ++ e :: todo) spare) (handled : e.ready)
    (waiting : (s.handled ++ ready (e :: todo)).Perm s.reported)
    : ∃ clients spare, Inv (hungup s (done.length + 1) e) head clients spare := by
  obtain ⟨c, client, -, -, table, state⟩ := inv.hungup_eq
  have numfd := inv.numfd
  rw [state]
  rcases List.eq_nil_or_concat' todo with rfl | ⟨middle, last, rfl⟩
  · rw [pack_last (s := { handle s e.fd c with client, opened := s.without e.fd }) inv.array
      (by simpa using numfd)]
    exact ⟨_, _, inv.remove handled waiting table (List.Perm.refl _) (by simp) _
      (.inr ⟨rfl, by omega⟩)⟩
  · rw [pack_middle (s := { handle s e.fd c with client, opened := s.without e.fd }) inv.array
      (by simpa [Nat.add_assoc] using numfd)]
    exact ⟨_, _, inv.remove handled waiting table (List.perm_append_singleton _ _).symm (by simp) _
      (.inl rfl)⟩

/-- A request leaves both arrays alone. -/
theorem Inv.request (inv : Inv s head (done ++ e :: todo) spare) (handled : e.ready)
    (waiting : (s.handled ++ ready (e :: todo)).Perm s.reported)
    : Inv (request s (done.length + 1) e) head (done ++ e :: todo) spare := by
  obtain ⟨-, -, ⟨c, entry⟩, -⟩ := inv.entry
  have state : PollLoop.request s (done.length + 1) e
      = { handle s e.fd c with loc := .scanning (done.length + 2) } := by
    unfold PollLoop.request
    rw [entry]
  rw [state]
  refine ⟨inv.array, inv.size, inv.numfd, inv.listen, inv.opened, inv.proper, inv.distinct,
    inv.table, inv.reportedOnce, done ++ [e], todo, by simp, .inl (by simp), ?_⟩
  rw [ready_cons, if_pos handled, ← List.append_assoc] at waiting
  exact waiting

/-- The loop goes past an entry that was not reported. -/
theorem Inv.skip (inv : Inv s head (done ++ e :: todo) spare) (unreported : ¬ e.ready)
    (waiting : (s.handled ++ ready (e :: todo)).Perm s.reported)
    : Inv { s with loc := .scanning (done.length + 2) } head (done ++ e :: todo) spare := by
  refine ⟨inv.array, inv.size, inv.numfd, inv.listen, inv.opened, inv.proper, inv.distinct,
    inv.table, inv.reportedOnce, done ++ [e], todo, by simp, .inl (by simp), ?_⟩
  rw [ready_cons, if_neg unreported] at waiting
  exact waiting

/-- A step of the scan keeps the invariant. -/
theorem Inv.scan (inv : Inv s head clients spare) {i : Nat} (here : s.loc = .scanning i)
    (nread : Nat)
    : ∃ clients spare, Inv (scan s i nread) head clients spare := by
  have at_ := inv.atLoc
  simp only [Server.AtLoc, here] at at_
  obtain ⟨done, todo, rfl, position, waiting⟩ := at_
  have numfd := inv.numfd
  unfold PollLoop.scan
  cases todo with
  | nil =>
      simp only [List.append_nil] at numfd
      rw [if_neg (by omega)]
      refine ⟨done ++ [], spare, inv.array, inv.size, inv.numfd, inv.listen, inv.opened,
        inv.proper, inv.distinct, inv.table, inv.reportedOnce, ?_⟩
      simpa [Server.AtLoc, ready] using waiting
  | cons e todo =>
      obtain rfl : i = done.length + 1 := by simpa using position
      obtain ⟨inside, entry, -, -⟩ := inv.entry
      rw [if_pos inside, entry]
      dsimp only
      split
      · next hup => exact inv.hungup (by simp [Pollfd.ready, hup]) waiting
      · next noHup =>
          split
          · next isIn =>
              have handled : e.ready := by simp [Pollfd.ready, isIn]
              split
              · exact inv.hungup handled waiting
              · exact ⟨_, _, inv.request handled waiting⟩
          · next noIn => exact ⟨_, _, inv.skip (by simp [Pollfd.ready, noHup, noIn]) waiting⟩

-----------------------------------------------------------------------------------------
-- Every run
-----------------------------------------------------------------------------------------

/-- The invariant holds at the start. -/
theorem start_inv {listenfd : Int} (valid : 0 ≤ listenfd)
    : ∃ head clients spare, Inv (start listenfd) head clients spare := by
  refine ⟨{ Pollfd.blank with fd := listenfd }, [], List.replicate (nAlloc - 1) .blank, ?_⟩
  constructor
  case array => rfl
  case size => rfl
  case numfd => rfl
  case listen => rfl
  case opened => exact List.Perm.refl _
  case proper => simpa [start] using valid
  case distinct => simp [start]
  case table =>
    obtain ⟨i, client, added, table⟩ := clientAdd_held [] (show listenfd ≠ -1 by omega) 0
    have state : (start listenfd).client = client := by simp [start, added]
    rw [state]
    exact table
  case reportedOnce => exact List.nodup_nil
  case atLoc => exact List.Perm.refl _

/-- Every step keeps the invariant, by the kind of event. -/
theorem step_inv (h : step s event = some s')
    (inv : ∃ head clients spare, Inv s head clients spare)
    : ∃ head clients spare, Inv s' head clients spare := by
  obtain ⟨head, clients, spare, inv⟩ := inv
  cases event with
  | poll report =>
      simp only [step] at h
      split at h <;> cases h
      exact inv.poll report
  | accept clifd uid =>
      simp only [step] at h
      split at h
      · next here =>
          split at h <;> cases h
          next fresh => exact ⟨head, inv.accept here fresh.1 fresh.2.1 fresh.2.2 uid⟩
      · cases h
  | scan nread =>
      simp only [step] at h
      split at h <;> cases h
      next here => exact ⟨head, inv.scan here nread⟩

/-- While the server polls, its books are right. -/
theorem Inv.booked (inv : Inv s head clients spare) (here : s.loc = .polling)
    : Booked s := by
  have handled := inv.atLoc
  simp only [Server.AtLoc, here] at handled
  have fsts := inv.table.map Prod.fst
  rw [expected_fst] at fsts
  constructor
  case distinct =>
    rw [inv.polled_eq, inv.opened.nodup_iff]
    exact (List.nodup_cons.mp inv.distinct).2
  case clients =>
    rw [inv.polled_eq]
    exact inv.opened
  case table =>
    rw [inv.polled_eq]
    exact fsts.trans (inv.opened.symm.cons _)
  case tableOnce => exact fsts.nodup_iff.mpr inv.distinct
  case handled => exact handled
  case handledOnce => exact handled.nodup_iff.mpr inv.reportedOnce

/-- After every pass `pollfd[]` and `client[]` hold the accepted clients, each once, and the
pass has read or closed each reported client once and no other; no index leaves its array, and
`client_del` finds every entry. Witness: induction over the run.
-/
theorem reachable_booked {listenfd : Int} (valid : 0 ≤ listenfd)
    (h : Reachable step (start listenfd) s)
    : (s.loc = .polling → Booked s) ∧ s.loc ≠ .fault ∧ s.loc ≠ .quit
      ∧ s.numfd ≤ s.maxfd ∧ s.pollfd.length = s.maxfd := by
  obtain ⟨head, clients, spare, inv⟩ := h.invariant (start_inv valid) step_inv
  have at_ := inv.atLoc
  have array := inv.size
  rw [inv.array] at array
  refine ⟨inv.booked, ?_, ?_, ?_, inv.size⟩
  · intro here
    simp only [Server.AtLoc, here] at at_
  · intro here
    simp only [Server.AtLoc, here] at at_
  · simp only [inv.numfd, ← array, List.length_cons, List.length_append]
    omega

/-- Two clients connect; the first hangs up in the pass in which the second sends a request. -/
def twoClients : List Event :=
  [.poll fun i => (i = 0, false), .accept 4 10, .scan 0, .scan 0,
    .poll fun i => (i = 0, false), .accept 5 20, .scan 0, .scan 0, .scan 0,
    .poll fun i => (i = 2, i = 1), .scan 0, .scan 7, .scan 0]

/-- A run with two clients, one of which leaves. -/
theorem reachable_booked_twoClients
    : ∃ s, runEvents step (start 3) twoClients = some s
      ∧ s.loc = .polling ∧ s.handled = [4, 5] ∧ s.polled = [5]
      ∧ (s.loc = .polling → Booked s) ∧ s.loc ≠ .fault ∧ s.loc ≠ .quit
      ∧ s.numfd ≤ s.maxfd ∧ s.pollfd.length = s.maxfd := by
  have happens : (runEvents step (start 3) twoClients).isSome := by decide
  exact ⟨_, (Option.some_get happens).symm, rfl, rfl, rfl,
    reachable_booked (by decide) (.of_isSome happens)⟩

end Minions.Opend.PollLoop
