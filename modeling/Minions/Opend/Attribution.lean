import Minions.Opend.PollLoop

/-! Under whose user id the poll loop of the open server handles its clients.
The loop looks up the user id of a client at the client's index in `pollfd[]`. The two arrays
agree as long as no client but the last one in `pollfd[]` leaves.
-/

namespace Minions.Opend.PollLoop

open Minions.Logic

variable {s s' : Server} {event : Event} {head e : Pollfd}
  {clients spare done todo : List Pollfd}

/-- The step closes the connection of a client that is not the last in `pollfd[]`: the last
entry takes its place.
-/
def closesEarlier (s : Server) : Event → Bool
  | .scan nread =>
      match s.loc with
      | .scanning i =>
          s.pollfd[i]?.any fun e => (e.pollhup || e.pollin && nread == 0) && i < s.numfd - 1
      | _ => false
  | _ => false

/-- The entries in use of `client[]` are those of `pollfd[]`, at the same indices. -/
def Server.Aligned (s : Server) : Prop :=
  ∃ rest, s.client.map Client.fd = (s.listenfd :: s.polled) ++ rest ∧ ∀ fd ∈ rest, fd = -1

-----------------------------------------------------------------------------------------
-- The first entry
-----------------------------------------------------------------------------------------

/-- Where a value is first found in a list, the part before it is determined. -/
theorem eq_of_first {x : Int} {before after used rest : List Int}
    (same : before ++ x :: after = used ++ rest) (notBefore : x ∉ before) (notUsed : x ∉ used)
    (here : rest.head? = some x)
    : before = used ∧ x :: after = rest := by
  cases rest with
  | nil => simp at here
  | cons y rest =>
      obtain rfl : y = x := by simpa using here
      have first : (before ++ y :: after).takeWhile (fun z => z ≠ y) = before := by
        rw [List.takeWhile_append_of_pos (by
          intro z mem
          have : z ≠ y := fun eq => notBefore (eq ▸ mem)
          simpa using this)]
        simp
      have second : (used ++ y :: rest).takeWhile (fun z => z ≠ y) = used := by
        rw [List.takeWhile_append_of_pos (by
          intro z mem
          have : z ≠ y := fun eq => notUsed (eq ▸ mem)
          simpa using this)]
        simp
      obtain rfl : before = used := by rw [← first, same, second]
      exact ⟨rfl, List.append_cancel_left same⟩

/-- `client_add` to a table whose first entries are the ones in use adds behind them. -/
theorem clientAdd_first {client : List Client} {used rest : List Int}
    (table : client.map Client.fd = used ++ rest) (inUse : -1 ∉ used)
    (free : ∀ fd ∈ rest, fd = -1) (clifd : Int) (uid : Nat)
    : ∃ i client' rest', clientAdd client clifd uid = some (i, client')
      ∧ client'.map Client.fd = (used ++ [clifd]) ++ rest' ∧ ∀ fd ∈ rest', fd = -1 := by
  obtain ⟨before, c, after, added, from_, isFree, earlier⟩ := clientAdd_split client clifd uid
  obtain ⟨rest', free', grown⟩ : ∃ rest' : List Int, (∀ fd ∈ rest', fd = -1)
      ∧ (before ++ c :: after).map Client.fd = used ++ rest' := by
    rcases from_ with same | same
    · exact ⟨rest, free, by rw [← same, table]⟩
    · refine ⟨rest ++ List.replicate clientNAlloc (-1), ?_, ?_⟩
      · intro fd mem
        rcases List.mem_append.mp mem with mem | mem
        · exact free fd mem
        · exact List.eq_of_mem_replicate mem
      · rw [← same, clientAlloc, List.map_append, table]
        simp
  have available : c.fd = -1 := by simpa [Client.free] using isFree
  rw [List.map_append, List.map_cons, available] at grown
  have notBefore : -1 ∉ before.map Client.fd := by
    intro mem
    obtain ⟨b, hb, same⟩ := List.mem_map.mp mem
    exact earlier b hb (by simp [Client.free, same])
  have here : rest'.head? = some (-1) := by
    cases rest' with
    | nil =>
        refine absurd ?_ inUse
        rw [List.append_nil] at grown
        rw [← grown]
        simp
    | cons y rest' => simp [free' y (by simp)]
  obtain ⟨front, back⟩ := eq_of_first grown notBefore inUse here
  refine ⟨_, _, after.map Client.fd, added, ?_, ?_⟩
  · rw [List.map_append, List.map_cons, front]
    simp
  · intro fd mem
    exact free' fd (back ▸ List.mem_cons_of_mem _ mem)

/-- `client_del` of the last descriptor in use makes its entry available. -/
theorem clientDel_last {client client' : List Client} {used rest : List Int} {fd : Int}
    (h : clientDel client fd = some client')
    (table : client.map Client.fd = (used ++ [fd]) ++ rest) (once : fd ∉ used)
    : client'.map Client.fd = used ++ (-1) :: rest := by
  obtain ⟨before, c, after, rfl, same, earlier, rfl⟩ := clientDel_split h
  have notBefore : fd ∉ before.map Client.fd := by
    intro mem
    obtain ⟨b, hb, eq⟩ := List.mem_map.mp mem
    exact earlier b hb eq
  rw [List.map_append, List.map_cons, same, List.append_assoc] at table
  obtain ⟨front, back⟩ := eq_of_first table notBefore once rfl
  rw [List.map_append, List.map_cons, front, List.tail_eq_of_cons_eq back]
  rfl

/-- An entry of `client[]` with the descriptor of a client has its user id. -/
theorem Inv.owner (inv : Inv s head clients spare) {c : Client} (mem : c ∈ s.client)
    (accepted : c.fd ∈ s.opened.map Prod.fst)
    : Attribution.Right ⟨c.fd, c.uid, s.opened.lookup c.fd⟩ := by
  have valid := inv.proper c.fd (List.mem_cons_of_mem _ accepted)
  obtain ⟨notListen, distinct⟩ := List.nodup_cons.mp inv.distinct
  have used := mem_held mem (by omega)
  rcases List.mem_cons.mp (inv.table.mem_iff.mp used) with same | mem
  · have listen : c.fd = s.listenfd := congrArg Prod.fst same
    exact absurd (listen ▸ accepted) notListen
  · exact right_of_mem distinct mem

/-- In agreeing arrays the loop finds the entry of the client it looks at. -/
theorem Inv.attributes (inv : Inv s head (done ++ e :: todo) spare) (aligned : s.Aligned)
    {c : Client} (entry : s.client[done.length + 1]? = some c)
    : Attribution.Right ⟨e.fd, c.uid, s.opened.lookup e.fd⟩ := by
  obtain ⟨rest, table, -⟩ := aligned
  obtain ⟨-, -, -, accepted⟩ := inv.entry
  have same : c.fd = e.fd := by
    have found : (s.client.map Client.fd)[done.length + 1]? = some c.fd := by
      rw [List.getElem?_map, entry]
      rfl
    rw [table, inv.polled_eq] at found
    simpa using found.symm
  rw [← same] at accepted ⊢
  exact inv.owner (List.mem_of_getElem? entry) accepted

-----------------------------------------------------------------------------------------
-- Steps
-----------------------------------------------------------------------------------------

/-- The arrays agree, and every client so far was handled under its own user id. -/
structure Faithful (s : Server) : Prop where
  booked : ∃ head clients spare, Inv s head clients spare
  aligned : s.Aligned
  right : ∀ a ∈ s.attributed, a.Right

/-- A `poll` changes neither the polled descriptors nor the clients. -/
theorem poll_polled (s : Server) (report : Nat → Bool × Bool)
    : (poll s report).polled = s.polled ∧ (poll s report).client = s.client
      ∧ (poll s report).listenfd = s.listenfd ∧ (poll s report).attributed = s.attributed := by
  have fds := map_fd_mapIdx (setRevents_fd s.numfd report) s.pollfd
  unfold poll Server.polled
  dsimp only
  split <;> simp [List.map_take, fds]

/-- No polled descriptor is free. -/
theorem Inv.inUse (inv : Inv s head clients spare)
    : -1 ∉ s.listenfd :: s.polled := by
  intro mem
  have accepted : -1 ∈ s.listenfd :: s.opened.map Prod.fst := by
    rw [inv.polled_eq] at mem
    exact (inv.opened.cons s.listenfd).mem_iff.mp mem
  have valid := inv.proper (-1) accepted
  omega

/-- A new client takes the same index in both arrays. -/
theorem Inv.aligned_accept (inv : Inv s head clients spare) (aligned : s.Aligned) (clifd : Int)
    (uid : Nat)
    : (PollLoop.accept s clifd uid).Aligned
      ∧ (PollLoop.accept s clifd uid).attributed = s.attributed := by
  obtain ⟨rest, table, free⟩ := aligned
  obtain ⟨i, client, rest', added, table', free'⟩ :=
    clientAdd_first table inv.inUse free clifd uid
  obtain ⟨more, maxfd, state, -⟩ := inv.accept_eq added
  rw [state]
  refine ⟨⟨rest', ?_, free'⟩, rfl⟩
  rw [polled_of_array rfl (by simp [inv.numfd])]
  dsimp only
  rw [table', inv.polled_eq]
  simp

/-- Closing the last client makes the entries at its index available in both arrays. -/
theorem Inv.aligned_hungup (inv : Inv s head (done ++ [e]) spare) (aligned : s.Aligned)
    : (PollLoop.hungup s (done.length + 1) e).Aligned
      ∧ ∃ a : Attribution, a.Right
        ∧ (PollLoop.hungup s (done.length + 1) e).attributed = s.attributed ++ [a] := by
  obtain ⟨c, client, entry, deleted, -, state⟩ := inv.hungup_eq
  have right := inv.attributes aligned entry
  obtain ⟨rest, table, free⟩ := aligned
  have numfd := inv.numfd
  have once : e.fd ∉ s.listenfd :: done.map Pollfd.fd := by
    have nodup := (inv.opened.cons s.listenfd).nodup_iff.mpr inv.distinct
    have moved : (s.listenfd :: (done ++ [e]).map Pollfd.fd).Perm
        (e.fd :: s.listenfd :: done.map Pollfd.fd) := by
      rw [List.map_append, ← List.cons_append]
      exact List.perm_append_singleton _ _
    exact (List.nodup_cons.mp (moved.nodup_iff.mp nodup)).1
  have after : client.map Client.fd = (s.listenfd :: done.map Pollfd.fd) ++ (-1) :: rest := by
    apply clientDel_last deleted _ once
    rw [table, inv.polled_eq]
    simp
  rw [state, pack_last (s := { handle s e.fd c with client, opened := s.without e.fd }) inv.array
    (by simpa using numfd)]
  refine ⟨⟨-1 :: rest, ?_, ?_⟩, _, right, rfl⟩
  · rw [polled_of_array rfl (by simp [numfd])]
    rw [List.append_nil]
    exact after
  · intro fd mem
    rcases List.mem_cons.mp mem with same | mem
    · exact same
    · exact free fd mem

/-- A step of the loop over the clients, where it closes no earlier client. -/
theorem Faithful.scan (faithful : Faithful s) {i : Nat} (here : s.loc = .scanning i)
    {nread : Nat} (lastOnly : ¬ closesEarlier s (.scan nread))
    : (PollLoop.scan s i nread).Aligned
      ∧ ∀ a ∈ (PollLoop.scan s i nread).attributed, a.Right := by
  obtain ⟨head, clients, spare, inv⟩ := faithful.booked
  have at_ := inv.atLoc
  simp only [Server.AtLoc, here] at at_
  obtain ⟨done, todo, rfl, position, -⟩ := at_
  have numfd := inv.numfd
  unfold PollLoop.scan
  cases todo with
  | nil =>
      simp only [List.append_nil] at numfd
      rw [if_neg (by omega)]
      exact ⟨faithful.aligned, faithful.right⟩
  | cons e todo =>
      obtain rfl : i = done.length + 1 := by simpa using position
      obtain ⟨inside, entry, ⟨c, client⟩, -⟩ := inv.entry
      have closing : e.pollhup ∨ e.pollin ∧ nread = 0
          → (hungup s (done.length + 1) e).Aligned
            ∧ ∀ a ∈ (hungup s (done.length + 1) e).attributed, a.Right := by
        intro closes
        have last : todo = [] := by
          apply Classical.byContradiction
          intro behind
          have := List.length_pos_iff.mpr behind
          apply lastOnly
          have earlier : done.length + 1 < s.numfd - 1 := by
            simp only [List.length_append, List.length_cons] at numfd
            omega
          simpa [closesEarlier, here, entry, earlier] using closes
        subst last
        obtain ⟨aligned, a, right, logged⟩ := inv.aligned_hungup faithful.aligned
        refine ⟨aligned, ?_⟩
        intro b mem
        rw [logged] at mem
        rcases List.mem_append.mp mem with mem | mem
        · exact faithful.right b mem
        · exact List.mem_singleton.mp mem ▸ right
      rw [if_pos inside, entry]
      dsimp only
      split
      · next hup => exact closing (.inl hup)
      · split
        · next isIn =>
            split
            · next atEnd => exact closing (.inr ⟨isIn, atEnd⟩)
            · unfold request
              rw [client]
              refine ⟨faithful.aligned, ?_⟩
              intro b mem
              rcases List.mem_append.mp mem with mem | mem
              · exact faithful.right b mem
              · exact List.mem_singleton.mp mem ▸ inv.attributes faithful.aligned client
        · exact ⟨faithful.aligned, faithful.right⟩

/-- An event that closes no earlier client keeps the attributions right. -/
theorem Faithful.step (lastOnly : ¬ closesEarlier s event) (h : step s event = some s')
    (faithful : Faithful s)
    : Faithful s' := by
  have booked := step_inv h faithful.booked
  cases event with
  | poll report =>
      simp only [PollLoop.step] at h
      split at h <;> cases h
      obtain ⟨polled, client, listenfd, attributed⟩ := poll_polled s report
      refine ⟨booked, ?_, ?_⟩
      · unfold Server.Aligned
        rw [polled, client, listenfd]
        exact faithful.aligned
      · rw [attributed]
        exact faithful.right
  | accept clifd uid =>
      simp only [PollLoop.step] at h
      split at h
      · split at h <;> cases h
        obtain ⟨head, clients, spare, inv⟩ := faithful.booked
        obtain ⟨aligned, attributed⟩ := inv.aligned_accept faithful.aligned clifd uid
        refine ⟨booked, aligned, ?_⟩
        rw [attributed]
        exact faithful.right
      · cases h
  | scan nread =>
      simp only [PollLoop.step] at h
      split at h <;> cases h
      next here =>
        obtain ⟨aligned, right⟩ := faithful.scan here lastOnly
        exact ⟨booked, aligned, right⟩

/-- The server starts with right attributions. -/
theorem start_faithful {listenfd : Int} (valid : 0 ≤ listenfd)
    : Faithful (start listenfd) := by
  refine ⟨start_inv valid, ⟨List.replicate (clientNAlloc - 1) (-1), rfl, ?_⟩, by simp [start]⟩
  exact fun fd mem => List.eq_of_mem_replicate mem

/-- In every run in which only the last client of `pollfd[]` ever leaves, each request and each
logged close carries the user id that `serv_accept` returned for the connection. Witness:
induction over the run.
-/
theorem attributes_owner_of_lastOnly {listenfd : Int} (valid : 0 ≤ listenfd)
    {events : List Event}
    (lastOnly : EveryStep step (fun s event => ¬ closesEarlier s event) (start listenfd) events)
    (h : runEvents step (start listenfd) events = some s)
    : ∀ a ∈ s.attributed, a.Right :=
  (runEvents_invariant_of_everyStep Faithful.step lastOnly h (start_faithful valid)).right

/-- Two clients connect and the second one leaves again. -/
def secondLeaves : List Event :=
  [.poll fun i => (i = 0, false), .accept 4 10, .scan 0, .scan 0,
    .poll fun i => (i = 0, false), .accept 5 20, .scan 0, .scan 0, .scan 0,
    .poll fun i => (i = 1, i = 2), .scan 7, .scan 0, .scan 0]

/-- A run in which the last client leaves: each request is attributed to its sender. -/
theorem attributes_owner_of_lastOnly_secondLeaves
    : ∃ s, runEvents step (start 3) secondLeaves = some s
      ∧ s.attributed = [⟨4, some 10, some 10⟩, ⟨5, some 20, some 20⟩]
      ∧ ∀ a ∈ s.attributed, a.Right := by
  have happens : (runEvents step (start 3) secondLeaves).isSome := by decide
  have lastOnly : EveryStep step (fun s event => ¬ closesEarlier s event) (start 3)
      secondLeaves := by
    decide
  exact ⟨_, (Option.some_get happens).symm, rfl,
    attributes_owner_of_lastOnly (by decide) lastOnly (Option.some_get happens).symm⟩

/-- When the first of two clients leaves, the request of the second is handled under the user
id of the first.
-/
theorem second_handled_as_first
    : ∃ s, runEvents step (start 3) twoClients = some s
      ∧ (⟨5, some 10, some 20⟩ : Attribution) ∈ s.attributed
      ∧ ¬ ∀ a ∈ s.attributed, a.Right := by
  have happens : (runEvents step (start 3) twoClients).isSome := by decide
  have logged : (⟨5, some 10, some 20⟩ : Attribution)
      ∈ ((runEvents step (start 3) twoClients).get happens).attributed := by
    exact List.mem_cons_of_mem _ (List.mem_singleton.mpr rfl)
  refine ⟨_, (Option.some_get happens).symm, logged, ?_⟩
  intro right
  obtain ⟨uid, passed, owner⟩ := right _ logged
  simp only [Option.some.injEq] at passed owner
  omega

end Minions.Opend.PollLoop
