import Minions.Opend.Clients
import Minions.Logic.Events

/-! The open server's main loop over `select`: `loop.select.c`.
The loop goes through the table of clients itself, so the descriptor and the user id that it
passes to `handle_request` come from one entry. A read outside the table leads to `fault`, the
`log_quit` of `client_del` to `quit`; other failing calls are left out.
-/

namespace Minions.Opend.SelectLoop

open Minions.Logic

/-- Where `loop` is: before `select`, before `serv_accept`, or in the loop over the clients. -/
inductive Loc
  | selecting
  | accepting
  | scanning (i : Nat) (rset : List Int)
  | fault
  | quit

/-- The variables of `loop`, the table of clients, and what has happened so far. -/
structure Server where
  client : List Client
  listenfd : Int
  allset : List Int
  maxfd : Int
  maxi : Int
  loc : Loc
  /-- The connections that are accepted and not closed, with their user ids. -/
  opened : List (Int × Nat)
  attributed : List Attribution

def start (listenfd : Int) : Server where
  client := []
  listenfd := listenfd
  allset := [listenfd]
  maxfd := listenfd
  maxi := -1
  loc := .selecting
  opened := []
  attributed := []

def accept (s : Server) (clifd : Int) (uid : Nat) : Server :=
  match clientAdd s.client clifd uid with
  | none => { s with loc := .fault }
  | some (i, client) =>
      { s with
        client
        opened := s.opened ++ [(clifd, uid)]
        allset := clifd :: s.allset
        maxfd := if clifd > s.maxfd then clifd else s.maxfd
        maxi := if (i : Int) > s.maxi then i else s.maxi
        loc := .selecting }

/-- The client of an entry is read or closed. -/
def handle (s : Server) (c : Client) : Server :=
  { s with attributed := s.attributed ++ [⟨c.fd, c.uid, s.opened.lookup c.fd⟩] }

/-- The branch in which the client has closed the connection. -/
def closed (s : Server) (c : Client) : Server :=
  match clientDel s.client c.fd with
  | none => { s with loc := .quit }
  | some client =>
      { s with
        client
        opened := s.opened.filter fun entry => entry.1 ≠ c.fd
        allset := s.allset.filter fun fd => fd ≠ c.fd }

/-- The loop looks at the next entry; `read` returns `nread` where it is called. -/
def scan (s : Server) (i : Nat) (rset : List Int) (nread : Nat) : Server :=
  if (i : Int) ≤ s.maxi then
    match s.client[i]? with
    | none => { s with loc := .fault }
    | some c =>
        let s := { s with loc := .scanning (i + 1) rset }
        if c.fd < 0 then s
        else if c.fd ∈ rset then
          if nread = 0 then closed (handle s c) c else handle s c
        else s
  else { s with loc := .selecting }

inductive Event
  /-- `select` returns with some of the descriptors it was asked for. -/
  | select (rset : List Int)
  | accept (clifd : Int) (uid : Nat)
  | scan (nread : Nat)

/-- One step. `serv_accept` returns a descriptor that is not in use. -/
def step (s : Server) : Event → Option Server
  | .select rset =>
      match s.loc with
      | .selecting =>
          if ∀ fd ∈ rset, fd ∈ s.allset then
            some { s with loc := if s.listenfd ∈ rset then .accepting else .scanning 0 rset }
          else none
      | _ => none
  | .accept clifd uid =>
      match s.loc with
      | .accepting =>
          if 0 ≤ clifd ∧ clifd ≠ s.listenfd ∧ clifd ∉ s.opened.map Prod.fst then
            some (accept s clifd uid)
          else none
      | _ => none
  | .scan nread =>
      match s.loc with
      | .scanning i rset => some (scan s i rset nread)
      | _ => none

/-- The table holds the accepted connections, and every client so far was handled under its
own user id.
-/
structure Inv (s : Server) : Prop where
  proper : ∀ fd ∈ s.opened.map Prod.fst, 0 ≤ fd
  distinct : (s.opened.map Prod.fst).Nodup
  table : (held s.client).Perm (s.opened.map fun entry => (entry.1, some entry.2))
  right : ∀ a ∈ s.attributed, a.Right

variable {s s' : Server} {event : Event}

/-- A new connection keeps the invariant. -/
theorem Inv.accept (inv : Inv s) {clifd : Int} (valid : 0 ≤ clifd)
    (fresh : clifd ∉ s.opened.map Prod.fst) (uid : Nat)
    : Inv (accept s clifd uid) := by
  obtain ⟨i, client, added, table⟩ := clientAdd_held s.client (show clifd ≠ -1 by omega) uid
  unfold SelectLoop.accept
  rw [added]
  constructor
  case proper =>
    intro fd mem
    simp only [List.map_append, List.mem_append, List.map_cons, List.map_nil,
      List.mem_singleton] at mem
    rcases mem with mem | rfl
    · exact inv.proper fd mem
    · exact valid
  case distinct =>
    have moved : ((s.opened ++ [(clifd, uid)]).map Prod.fst).Perm
        (clifd :: s.opened.map Prod.fst) := by
      rw [List.map_append]
      exact List.perm_append_singleton _ _
    exact moved.nodup_iff.mpr (List.nodup_cons.mpr ⟨fresh, inv.distinct⟩)
  case table =>
    apply table.trans
    apply (inv.table.cons _).trans
    rw [List.map_append]
    exact (List.perm_append_singleton _ _).symm
  case right => exact inv.right

/-- A request keeps the invariant. -/
theorem Inv.handle (inv : Inv s) {c : Client} (mem : c ∈ s.client) (used : 0 ≤ c.fd)
    : Inv (handle s c) := by
  refine ⟨inv.proper, inv.distinct, inv.table, ?_⟩
  intro a logged
  rcases List.mem_append.mp logged with logged | logged
  · exact inv.right a logged
  · have held := inv.table.mem_iff.mp (mem_held mem (by omega))
    exact List.mem_singleton.mp logged ▸ right_of_mem inv.distinct held

/-- A connection that is closed keeps the invariant. -/
theorem Inv.closed (inv : Inv s) {c : Client} (mem : c ∈ s.client) (used : 0 ≤ c.fd)
    : Inv (closed s c) := by
  have fsts : (s.opened.map fun entry => (entry.1, some entry.2)).map Prod.fst
      = s.opened.map Prod.fst := by
    simp
  have accepted : c.fd ∈ (s.opened.map fun entry => (entry.1, some entry.2)).map Prod.fst :=
    List.mem_map_of_mem (inv.table.mem_iff.mp (mem_held mem (by omega)))
  obtain ⟨client, deleted, table⟩ := clientDel_filter inv.table (fsts ▸ inv.distinct)
    (show c.fd ≠ -1 by omega) accepted
  have fewer : ((s.opened.filter fun entry => entry.1 ≠ c.fd).map Prod.fst).Sublist
      (s.opened.map Prod.fst) :=
    List.filter_sublist.map _
  unfold SelectLoop.closed
  rw [deleted]
  refine ⟨fun fd mem => inv.proper fd (fewer.subset mem), fewer.nodup inv.distinct, ?_,
    inv.right⟩
  rwa [List.filter_map] at table

/-- A step of the scan keeps the invariant. -/
theorem Inv.scan (inv : Inv s) (i : Nat) (rset : List Int) (nread : Nat)
    : Inv (scan s i rset nread) := by
  have moved : ∀ loc, Inv { s with loc } :=
    fun _ => ⟨inv.proper, inv.distinct, inv.table, inv.right⟩
  unfold SelectLoop.scan
  split
  · split
    · exact moved _
    · next c entry =>
        have mem : c ∈ s.client := List.mem_of_getElem? entry
        dsimp only
        split
        · exact moved _
        · next used =>
            split
            · have handled := (moved (.scanning (i + 1) rset)).handle mem (by omega)
              split
              · exact handled.closed mem (by omega)
              · exact handled
            · exact moved _
  · exact moved _

/-- Every event keeps the invariant. -/
theorem step_inv (h : step s event = some s') (inv : Inv s)
    : Inv s' := by
  cases event with
  | select rset =>
      simp only [step] at h
      split at h
      · split at h <;> cases h
        exact ⟨inv.proper, inv.distinct, inv.table, inv.right⟩
      · cases h
  | accept clifd uid =>
      simp only [step] at h
      split at h
      · split at h <;> cases h
        next fresh => exact inv.accept fresh.1 fresh.2.2 uid
      · cases h
  | scan nread =>
      simp only [step] at h
      split at h <;> cases h
      next i rset _ => exact inv.scan i rset nread

/-- In every run of the loop over `select`, each request and each logged close carries the user
id that `serv_accept` returned for the connection. Witness: induction over the run.
-/
theorem attributes_owner {listenfd : Int} (h : Reachable step (start listenfd) s)
    : ∀ a ∈ s.attributed, a.Right := by
  have initially : Inv (start listenfd) := by
    constructor <;> simp [start, held]
  exact (h.invariant initially step_inv).right

end Minions.Opend.SelectLoop
