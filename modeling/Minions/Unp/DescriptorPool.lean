import Minions.Data.Tally
import Minions.Logic.Events

/-! The preforked server that passes descriptors: `serv05.c` and `child05.c`.
The parent accepts each connection and passes its descriptor to a child over the child's
stream pipe; a child that has served its connection writes one byte back. Each call that a
process makes on a pipe or on the listening socket is a step of its own.
-/

namespace Minions.Unp.DescriptorPool

open Minions.Data Minions.Logic

variable {Conn : Type} {nchildren : Nat}

/-- Where `child_main` is: in `Read_fd`, in `web_child`, or before the `Write` that tells the
parent.
-/
inductive ChildLoc (Conn : Type)
  | reading
  | serving (conn : Conn)
  | telling

/-- What the parent keeps of a child, the child, and the stream pipe between them. -/
structure Child (Conn : Type) where
  childStatus : Nat
  childCount : Nat
  loc : ChildLoc Conn
  /-- The descriptors that the child has not read. -/
  down : List Conn
  /-- The bytes that the parent has not read. -/
  up : Nat
  /-- The connections that the child has served, in order. -/
  served : List Conn

/-- What `Select` leaves of `rset`, and the number it returns. -/
structure Selected (nchildren : Nat) where
  listenfd : Bool
  pipefd : Fin nchildren → Bool

/-- The ready descriptors of some children, counted. -/
def Selected.count (rset : Selected nchildren) (children : List (Fin nchildren)) : Nat :=
  children.countP rset.pipefd

def Selected.nsel (rset : Selected nchildren) : Nat :=
  rset.listenfd.toNat + rset.count (List.finRange nchildren)

/-- Where the parent is: before `Select`, before `Accept`, before `Write_fd`, or in the loop
over the children, with those still to come.
-/
inductive Loc (nchildren : Nat) (Conn : Type)
  | selecting
  | accepting (rset : Selected nchildren) (nsel : Nat)
  | passing (i : Fin nchildren) (conn : Conn) (rset : Selected nchildren) (nsel : Nat)
  | scanning (rest : List (Fin nchildren)) (rset : Selected nchildren) (nsel : Nat)
  | quit

/-- The server, and what has happened so far. -/
structure Server (nchildren : Nat) (Conn : Type) where
  navail : Int
  cptr : Fin nchildren → Child Conn
  loc : Loc nchildren Conn
  /-- The connections that wait to be accepted. -/
  backlog : List Conn
  /-- What `Accept` has returned, in order. -/
  accepted : List Conn
  /-- What `Write_fd` has passed, in order, and to whom. -/
  passed : List (Fin nchildren × Conn)

/-- All children are made. -/
def start (nchildren : Nat) (Conn : Type) : Server nchildren Conn where
  navail := nchildren
  cptr := fun _ =>
    { childStatus := 0, childCount := 0, loc := .reading, down := [], up := 0, served := [] }
  loc := .selecting
  backlog := []
  accepted := []
  passed := []

/-- `cptr[i] = …` -/
def Server.setChild (s : Server nchildren Conn) (i : Fin nchildren) (c : Child Conn)
    : Server nchildren Conn :=
  { s with cptr := Function.update s.cptr i c }

/-- `child_status = 1; child_count++` -/
def Child.mark (c : Child Conn) : Child Conn :=
  { c with childStatus := 1, childCount := c.childCount + 1 }

/-- `Write_fd` to the child's pipe. -/
def Child.give (c : Child Conn) (connfd : Conn) : Child Conn :=
  { c with down := c.down ++ [connfd] }

/-- `Read` of one byte from the child's pipe, and `child_status = 0`. -/
def Child.hear (c : Child Conn) : Child Conn :=
  { c with up := c.up - 1, childStatus := 0 }

/-- `Select` returns with some of the ready descriptors; with no available child it is not
asked for `listenfd`.
-/
def select (s : Server nchildren Conn) (rset : Selected nchildren)
    : Option (Server nchildren Conn) :=
  if 0 < rset.nsel
      ∧ (rset.listenfd → 0 < s.navail ∧ s.backlog ≠ [])
      ∧ ∀ i, rset.pipefd i → 0 < (s.cptr i).up then
    if rset.listenfd then some { s with loc := .accepting rset rset.nsel }
    else some { s with loc := .scanning (List.finRange nchildren) rset rset.nsel }
  else none

/-- `Accept`, and the search for an available child. -/
def accept (s : Server nchildren Conn) (rset : Selected nchildren) (nsel : Nat)
    : Option (Server nchildren Conn) :=
  match s.backlog with
  | [] => none
  | connfd :: rest =>
      let s := { s with backlog := rest, accepted := s.accepted ++ [connfd] }
      match (List.finRange nchildren).find? fun i => (s.cptr i).childStatus == 0 with
      | none => some { s with loc := .quit }
      | some i =>
          let s := s.setChild i (s.cptr i).mark
          some { s with navail := s.navail - 1, loc := .passing i connfd rset nsel }

/-- `Write_fd` and `Close`. -/
def writeFd (s : Server nchildren Conn) (i : Fin nchildren) (connfd : Conn)
    (rset : Selected nchildren) (nsel : Nat)
    : Server nchildren Conn :=
  let s := s.setChild i ((s.cptr i).give connfd)
  let s := { s with passed := s.passed ++ [(i, connfd)] }
  if nsel - 1 = 0 then { s with loc := .selecting }
  else { s with loc := .scanning (List.finRange nchildren) rset (nsel - 1) }

/-- The loop looks at the next child. `Read` waits for a byte of the child. -/
def scan (s : Server nchildren Conn) (rest : List (Fin nchildren)) (rset : Selected nchildren)
    (nsel : Nat)
    : Option (Server nchildren Conn) :=
  match rest with
  | [] => some { s with loc := .selecting }
  | i :: rest =>
      if rset.pipefd i then
        if (s.cptr i).up = 0 then none
        else
          let s := s.setChild i (s.cptr i).hear
          let s := { s with navail := s.navail + 1 }
          if nsel - 1 = 0 then some { s with loc := .selecting }
          else some { s with loc := .scanning rest rset (nsel - 1) }
      else some { s with loc := .scanning rest rset nsel }

/-- The next step of the parent, other than `Select`. -/
def parent (s : Server nchildren Conn) : Option (Server nchildren Conn) :=
  match s.loc with
  | .selecting => none
  | .accepting rset nsel => accept s rset nsel
  | .passing i connfd rset nsel => some (writeFd s i connfd rset nsel)
  | .scanning rest rset nsel => scan s rest rset nsel
  | .quit => none

/-- The next step of a child. -/
def childMain (c : Child Conn) : Option (Child Conn) :=
  match c.loc, c.down with
  | .reading, [] => none
  | .reading, connfd :: rest => some { c with loc := .serving connfd, down := rest }
  | .serving connfd, _ => some { c with loc := .telling, served := c.served ++ [connfd] }
  | .telling, _ => some { c with loc := .reading, up := c.up + 1 }

inductive Event (nchildren : Nat) (Conn : Type)
  | arrive (conn : Conn)
  | select (rset : Selected nchildren)
  | parent
  | child (i : Fin nchildren)

def step (s : Server nchildren Conn) : Event nchildren Conn → Option (Server nchildren Conn)
  | .arrive conn => some { s with backlog := s.backlog ++ [conn] }
  | .select rset =>
      match s.loc with
      | .selecting => select s rset
      | _ => none
  | .parent => parent s
  | .child i => (childMain (s.cptr i)).map (s.setChild i)

/-- The connection that a child serves. -/
def ChildLoc.current : ChildLoc Conn → List Conn
  | .serving conn => [conn]
  | _ => []

/-- The child waits for a descriptor, none is on its way to it, and the parent has read all
of its bytes.
-/
def Child.Idle (c : Child Conn) : Prop := c.loc = .reading ∧ c.down = [] ∧ c.up = 0

/-- The connections that a child has been given and has not finished. -/
def Child.outstanding (c : Child Conn) : List Conn := c.loc.current ++ c.down

/-- The connection that is accepted and not yet passed. -/
def Loc.inHand : Loc nchildren Conn → List Conn
  | .passing _ conn _ _ => [conn]
  | _ => []

/-- The connections passed to a child, in order. -/
def passedTo (passed : List (Fin nchildren × Conn)) (i : Fin nchildren) : List Conn :=
  (passed.filter fun entry => entry.1 = i).map Prod.snd

/-- The number of children that are marked available. -/
def Server.available (s : Server nchildren Conn) : Nat :=
  tally (fun c : Child Conn => c.childStatus == 0) s.cptr

/-- What holds in every state of the server. -/
structure Sound (s : Server nchildren Conn) : Prop where
  navail : s.loc = .selecting → s.navail = s.available
  noQuit : s.loc ≠ .quit
  idle : ∀ i, (s.cptr i).childStatus = 0 → (s.cptr i).Idle
  one : ∀ i, (s.cptr i).outstanding.length ≤ 1
  passed : s.accepted = s.passed.map Prod.snd ++ s.loc.inHand
  toIdle : ∀ i conn rset nsel, s.loc = .passing i conn rset nsel → (s.cptr i).Idle
  served : ∀ i, passedTo s.passed i = (s.cptr i).served ++ (s.cptr i).outstanding
  ready : ∀ rest rset nsel, s.loc = .scanning rest rset nsel
    → nsel = rset.count rest ∧ ∀ i ∈ rest, rset.pipefd i → 0 < (s.cptr i).up

-----------------------------------------------------------------------------------------
-- The invariant
-----------------------------------------------------------------------------------------

/-- A child has one thing to do for each descriptor on its way, for the connection that it
serves or has served, and for each byte that the parent has not read.
-/
def Child.load (c : Child Conn) : Nat :=
  c.down.length + (match c.loc with | .reading => 0 | _ => 1) + c.up

/-- The parent has chosen the child and not yet written to it. -/
def Loc.choosing : Loc nchildren Conn → Option (Fin nchildren)
  | .passing i _ _ _ => some i
  | _ => none

/-- The child's byte is selected and not yet read. -/
def Loc.Awaits : Loc nchildren Conn → Fin nchildren → Prop
  | .accepting rset _, i => rset.pipefd i
  | .passing _ _ rset _, i => rset.pipefd i
  | .scanning rest rset _, i => i ∈ rest ∧ rset.pipefd i
  | _, _ => False

/-- The count of selected descriptors agrees with where the parent is. -/
def Server.AtLoc (s : Server nchildren Conn) : Prop :=
  match s.loc with
  | .selecting => True
  | .accepting rset nsel => nsel = rset.nsel ∧ rset.listenfd ∧ 0 < s.navail ∧ s.backlog ≠ []
  | .passing i _ rset nsel =>
      nsel = rset.nsel ∧ rset.listenfd ∧ (s.cptr i).childStatus ≠ 0
  | .scanning rest rset nsel => nsel = rset.count rest ∧ rest.Nodup
  | .quit => False

/-- What one child has to do: nothing where it is marked available or just chosen, and else
one thing.
-/
structure ChildOk (loc : Loc nchildren Conn) (passed : List (Fin nchildren × Conn))
    (i : Fin nchildren) (c : Child Conn)
    : Prop where
  load : c.load = if c.childStatus = 0 ∨ loc.choosing = some i then 0 else 1
  served : passedTo passed i = c.served ++ c.outstanding
  awaits : loc.Awaits i → 0 < c.up

structure Inv (s : Server nchildren Conn) : Prop where
  navail : s.navail = s.available
  passed : s.accepted = s.passed.map Prod.snd ++ s.loc.inHand
  child : ∀ i, ChildOk s.loc s.passed i (s.cptr i)
  atLoc : s.AtLoc

variable {s s' : Server nchildren Conn} {event : Event nchildren Conn} {c c' : Child Conn}
  {i : Fin nchildren} {loc loc' : Loc nchildren Conn} {passed : List (Fin nchildren × Conn)}

/-- A child without load is idle. -/
theorem Child.idle_of_load (h : c.load = 0)
    : c.Idle := by
  unfold Child.load at h
  unfold Child.Idle
  cases here : c.loc <;> simp_all

/-- A child's connections are counted in its load. -/
theorem Child.outstanding_le_load (c : Child Conn)
    : c.outstanding.length ≤ c.load := by
  unfold Child.outstanding Child.load
  cases c.loc <;> (simp [ChildLoc.current]; try omega)

/-- How one child changes the number of available ones. -/
theorem available_setChild (s : Server nchildren Conn) (i : Fin nchildren) (c : Child Conn)
    : (s.setChild i c).available + ((s.cptr i).childStatus == 0).toNat
      = s.available + (c.childStatus == 0).toNat :=
  tally_update _ s.cptr i c

/-- What holds of each child after one of them has changed. -/
theorem forall_setChild {P : Fin nchildren → Child Conn → Prop} (one : P i c)
    (others : ∀ j, j ≠ i → P j (s.cptr j))
    : ∀ j, P j ((s.setChild i c).cptr j) :=
  (Function.forall_update_iff s.cptr P).mpr ⟨one, others⟩

/-- A child is unconcerned when the parent moves on without choosing it or waiting for it. -/
theorem ChildOk.move (ok : ChildOk loc passed i c)
    (choosing : loc'.choosing = some i ↔ loc.choosing = some i)
    (awaits : loc'.Awaits i → loc.Awaits i)
    : ChildOk loc' passed i c :=
  ⟨by simpa only [choosing] using ok.load, ok.served, fun h => ok.awaits (awaits h)⟩

/-- A child's step moves its work on and neither adds to it nor takes from it. -/
theorem childMain_keeps (h : childMain c = some c')
    : c'.load = c.load ∧ c'.childStatus = c.childStatus ∧ c.up ≤ c'.up
      ∧ c'.served ++ c'.outstanding = c.served ++ c.outstanding := by
  unfold childMain at h
  split at h <;> cases h <;>
    (simp_all [Child.load, Child.outstanding, ChildLoc.current]; try omega)

/-- A step of a child keeps the invariant. -/
theorem Inv.childMain (inv : Inv s) (h : childMain (s.cptr i) = some c)
    : Inv (s.setChild i c) := by
  obtain ⟨load, status, up, work⟩ := childMain_keeps h
  have count := available_setChild s i c
  rw [status] at count
  constructor
  case navail =>
    have before := inv.navail
    show s.navail = (s.setChild i c).available
    omega
  case passed => exact inv.passed
  case child =>
    apply forall_setChild
    · have ok := inv.child i
      exact ⟨by rw [load, status]; exact ok.load, by rw [work]; exact ok.served,
        fun hi => Nat.lt_of_lt_of_le (ok.awaits hi) up⟩
    · exact fun j _ => inv.child j
  case atLoc =>
    have at_ := inv.atLoc
    unfold Server.AtLoc at *
    simp only [Server.setChild] at *
    cases here : s.loc with
    | passing j connfd rset nsel =>
        simp only [here] at at_ ⊢
        refine ⟨at_.1, at_.2.1, ?_⟩
        by_cases same : j = i
        · subst same
          simpa [status] using at_.2.2
        · simpa [same] using at_.2.2
    | selecting => trivial
    | quit => simp only [here] at at_
    | _ => simpa only [here] using at_

-----------------------------------------------------------------------------------------
-- Steps of the parent
-----------------------------------------------------------------------------------------

/-- `select` keeps the invariant. -/
theorem Inv.select (inv : Inv s) (here : s.loc = .selecting) {rset : Selected nchildren}
    (h : select s rset = some s')
    : Inv s' := by
  have passed := inv.passed
  have child := inv.child
  rw [here] at passed child
  unfold DescriptorPool.select at h
  split at h
  · next enabled =>
      obtain ⟨_, listen, bytes⟩ := enabled
      split at h <;> cases h
      · next isSet =>
          refine ⟨inv.navail, passed, ?_, rfl, isSet, listen isSet⟩
          intro i
          exact ⟨(child i).load, (child i).served, bytes i⟩
      · next isClear =>
          refine ⟨inv.navail, passed, ?_, ?_, List.nodup_finRange nchildren⟩
          · intro i
            exact ⟨(child i).load, (child i).served, fun hi => bytes i hi.2⟩
          · simp [Selected.nsel, isClear]
  · cases h

/-- With an available child, `Accept` finds one and chooses it: `err_quit` is not reached. -/
theorem Inv.accept (inv : Inv s) {rset : Selected nchildren} {nsel : Nat}
    (here : s.loc = .accepting rset nsel) (h : accept s rset nsel = some s')
    : Inv s' := by
  have before := inv.navail
  have passed := inv.passed
  have child := inv.child
  have at_ := inv.atLoc
  simp only [Server.AtLoc, here] at at_
  rw [here] at passed child
  obtain ⟨count, listen, someAvailable, -⟩ := at_
  unfold DescriptorPool.accept at h
  split at h
  · cases h
  · next connfd rest _ =>
      dsimp only at h
      split at h
      · next notFound =>
          obtain ⟨i, hi⟩ := tally_pos_iff.mp (show 0 < s.available by omega)
          exact absurd hi (by simpa using List.find?_eq_none.mp notFound i (List.mem_finRange i))
      · next i found =>
          have free : (s.cptr i).childStatus = 0 := by
            simpa using List.find?_some found
          have idle : (s.cptr i).load = 0 := by
            rw [(child i).load, if_pos (.inl free)]
          have tallied := available_setChild s i (s.cptr i).mark
          cases h
          constructor
          case navail =>
            rw [free] at tallied
            show s.navail - 1 = (s.setChild i (s.cptr i).mark).available
            simp only [Child.mark, BEq.rfl, Nat.reduceBEq, Bool.toNat_true,
              Bool.toNat_false] at tallied ⊢
            omega
          case passed =>
            show s.accepted ++ [connfd] = s.passed.map Prod.snd ++ [connfd]
            rw [passed]
            simp [Loc.inHand]
          case child =>
            show ∀ j, ChildOk (.passing i connfd rset nsel) s.passed j
              ((s.setChild i (s.cptr i).mark).cptr j)
            apply forall_setChild
            · refine ⟨?_, (child i).served, (child i).awaits⟩
              rw [if_pos (.inr rfl)]
              exact idle
            · intro j other
              apply (child j).move
              · have : i ≠ j := fun same => other same.symm
                simp [Loc.choosing, this]
              · exact id
          case atLoc => simp [Server.AtLoc, Server.setChild, count, listen, Child.mark]

/-- Writing gives the chosen child its one connection. -/
theorem ChildOk.give {connfd : Conn} {rset : Selected nchildren} {nsel : Nat}
    (ok : ChildOk (.passing i connfd rset nsel) passed i c) (marked : c.childStatus ≠ 0)
    (choosing : loc'.choosing = none) (awaits : loc'.Awaits i → rset.pipefd i)
    : ChildOk loc' (passed ++ [(i, connfd)]) i (c.give connfd) := by
  have load : c.load = 0 := by
    rw [ok.load, if_pos (.inr rfl)]
  have served := ok.served
  constructor
  case load =>
    have : (c.give connfd).childStatus ≠ 0 := marked
    rw [if_neg (by simp [this, choosing])]
    unfold Child.load Child.give at *
    simp
    omega
  case served =>
    unfold passedTo at *
    simp only [List.filter_append, List.map_append, served]
    simp [Child.give, Child.outstanding]
  case awaits => exact fun hi => ok.awaits (awaits hi)

/-- Passing a descriptor to one child leaves the others alone. -/
theorem ChildOk.other {connfd : Conn} {rset : Selected nchildren} {nsel : Nat}
    {j : Fin nchildren} (ok : ChildOk (.passing i connfd rset nsel) passed j c) (other : j ≠ i)
    (choosing : loc'.choosing = none) (awaits : loc'.Awaits j → rset.pipefd j)
    : ChildOk loc' (passed ++ [(i, connfd)]) j c := by
  have apart : i ≠ j := fun same => other same.symm
  have moved : ChildOk loc' passed j c := by
    apply ok.move _ awaits
    rw [choosing]
    simp [Loc.choosing, apart]
  refine ⟨moved.load, ?_, moved.awaits⟩
  rw [← moved.served]
  simp [passedTo, apart]

/-- Passing a descriptor keeps the invariant. -/
theorem Inv.writeFd (inv : Inv s) {connfd : Conn} {rset : Selected nchildren} {nsel : Nat}
    (here : s.loc = .passing i connfd rset nsel)
    : Inv (writeFd s i connfd rset nsel) := by
  have passed := inv.passed
  have child := inv.child
  have at_ := inv.atLoc
  simp only [Server.AtLoc, here] at at_
  rw [here] at passed child
  obtain ⟨count, listen, marked⟩ := at_
  have remaining : nsel - 1 = rset.count (List.finRange nchildren) := by
    simp [count, Selected.nsel, listen]
  have tallied := available_setChild s i ((s.cptr i).give connfd)
  have navail : s.navail = (s.setChild i ((s.cptr i).give connfd)).available := by
    have before := inv.navail
    simp only [Child.give] at *
    omega
  have accepted : s.accepted = (s.passed ++ [(i, connfd)]).map Prod.snd ++ [] := by
    simpa [Loc.inHand] using passed
  have children : ∀ loc' : Loc nchildren Conn, loc'.choosing = none
      → (∀ j, loc'.Awaits j → rset.pipefd j)
      → ∀ j, ChildOk loc' (s.passed ++ [(i, connfd)]) j
        ((s.setChild i ((s.cptr i).give connfd)).cptr j) := by
    intro loc' choosing awaits
    apply forall_setChild
    · exact (child i).give marked choosing (awaits i)
    · exact fun j other => (child j).other other choosing (awaits j)
  unfold DescriptorPool.writeFd
  dsimp only
  split
  · exact ⟨navail, accepted, children .selecting rfl (by simp [Loc.Awaits]), trivial⟩
  · refine ⟨navail, accepted, children (.scanning _ rset (nsel - 1)) rfl ?_, remaining,
      List.nodup_finRange nchildren⟩
    exact fun j hj => hj.2

/-- A child whose byte is under way is marked busy. -/
theorem ChildOk.busy_of_byte (ok : ChildOk loc passed i c) (byte : c.up ≠ 0)
    : c.childStatus ≠ 0 := by
  intro free
  have load := ok.load
  rw [if_pos (.inl free)] at load
  unfold Child.load at load
  omega

/-- The byte of a child is the one thing that it had to do. -/
theorem ChildOk.hear (ok : ChildOk loc passed i c) (choosing : loc.choosing = none)
    (byte : c.up ≠ 0) (awaits : ¬ loc'.Awaits i)
    : ChildOk loc' passed i c.hear := by
  have load := ok.load
  rw [if_neg (by simp [ok.busy_of_byte byte, choosing])] at load
  refine ⟨?_, ok.served, fun hi => absurd hi awaits⟩
  rw [if_pos (.inl rfl)]
  unfold Child.load Child.hear at *
  simp only
  omega

/-- A step of the scan keeps the invariant. -/
theorem Inv.scan (inv : Inv s) {rest : List (Fin nchildren)} {rset : Selected nchildren}
    {nsel : Nat} (here : s.loc = .scanning rest rset nsel) (h : scan s rest rset nsel = some s')
    : Inv s' := by
  have before := inv.navail
  have passed := inv.passed
  have child := inv.child
  have at_ := inv.atLoc
  simp only [Server.AtLoc, here] at at_
  rw [here] at passed child
  obtain ⟨count, nodup⟩ := at_
  unfold DescriptorPool.scan at h
  cases rest with
  | nil =>
      cases h
      exact ⟨before, passed, fun i => (child i).move Iff.rfl (by simp [Loc.Awaits]), trivial⟩
  | cons i rest =>
      obtain ⟨fresh, nodup⟩ := List.nodup_cons.mp nodup
      dsimp only at h
      split at h
      · next isSet =>
          split at h
          · cases h
          · next byte =>
              have remaining : nsel - 1 = rset.count rest := by
                simp [count, Selected.count, isSet]
              have tallied := available_setChild s i (s.cptr i).hear
              have busy := (child i).busy_of_byte byte
              have navail : s.navail + 1 = (s.setChild i (s.cptr i).hear).available := by
                have : ((s.cptr i).childStatus == 0) = false := by simpa using busy
                simp only [Child.hear, BEq.rfl, this, Bool.toNat_true, Bool.toNat_false] at *
                omega
              have children : ∀ loc' : Loc nchildren Conn, loc'.choosing = none
                  → (∀ j, loc'.Awaits j → j ∈ rest ∧ rset.pipefd j)
                  → ∀ j, ChildOk loc' s.passed j ((s.setChild i (s.cptr i).hear).cptr j) := by
                intro loc' choosing awaits
                apply forall_setChild
                · exact (child i).hear rfl byte fun hi => fresh (awaits i hi).1
                · intro j _
                  apply (child j).move
                  · rw [choosing]
                    rfl
                  · exact fun hj => ⟨List.mem_cons_of_mem _ (awaits j hj).1, (awaits j hj).2⟩
              split at h <;> cases h
              · exact ⟨navail, passed, children .selecting rfl (by simp [Loc.Awaits]), trivial⟩
              · exact ⟨navail, passed, children (.scanning rest rset (nsel - 1)) rfl (fun _ => id),
                  remaining, nodup⟩
      · next isClear =>
          cases h
          refine ⟨before, passed, ?_, ?_, nodup⟩
          · intro j
            show ChildOk (.scanning rest rset nsel) s.passed j (s.cptr j)
            apply (child j).move
            · rfl
            · exact fun hj => ⟨List.mem_cons_of_mem _ hj.1, hj.2⟩
          · simpa [Selected.count, isClear] using count

-----------------------------------------------------------------------------------------
-- Every run
-----------------------------------------------------------------------------------------

/-- The invariant holds at the start. -/
theorem start_inv : Inv (start nchildren Conn) := by
  constructor
  case navail => simp [start, Server.available, tally]
  case passed => rfl
  case child =>
    intro i
    exact ⟨rfl, rfl, by simp [start, Loc.Awaits]⟩
  case atLoc => trivial

/-- Every step keeps the invariant, by the process that makes it. -/
theorem step_inv (h : step s event = some s') (inv : Inv s)
    : Inv s' := by
  cases event with
  | arrive conn =>
      cases h
      refine ⟨inv.navail, inv.passed, inv.child, ?_⟩
      have at_ := inv.atLoc
      unfold Server.AtLoc at *
      cases here : s.loc <;> simp_all
  | select rset =>
      simp only [step] at h
      split at h
      · next here => exact inv.select here h
      · cases h
  | parent =>
      simp only [step, parent] at h
      split at h
      · cases h
      · next here => exact inv.accept here h
      · next here =>
          cases h
          exact inv.writeFd here
      · next here => exact inv.scan here h
      · cases h
  | child i =>
      obtain ⟨c, hc, rfl⟩ := Option.map_eq_some_iff.mp h
      exact inv.childMain hc

/-- The invariant implies soundness. -/
theorem Inv.sound (inv : Inv s)
    : Sound s := by
  have at_ := inv.atLoc
  constructor
  case navail => exact fun _ => inv.navail
  case noQuit =>
    intro here
    simp [Server.AtLoc, here] at at_
  case idle =>
    intro i free
    apply Child.idle_of_load
    rw [(inv.child i).load, if_pos (.inl free)]
  case one =>
    intro i
    have le := Child.outstanding_le_load (s.cptr i)
    have load := (inv.child i).load
    split at load <;> omega
  case passed => exact inv.passed
  case toIdle =>
    intro i conn rset nsel here
    apply Child.idle_of_load
    rw [(inv.child i).load, here, if_pos (.inr rfl)]
  case served => exact fun i => (inv.child i).served
  case ready =>
    intro rest rset nsel here
    simp only [Server.AtLoc, here] at at_
    refine ⟨at_.1, fun i hi isSet => (inv.child i).awaits ?_⟩
    rw [here]
    exact ⟨hi, isSet⟩

/-- In every state that the parent and its children can reach, the counter of available
children is right before each `Select`, an available child is idle, a connection is passed only
to an idle child, and `err_quit` is not reached. Witness: induction over the run.
-/
theorem reachable_pool_sound (h : Reachable step (start nchildren Conn) s)
    : Sound s :=
  (h.invariant start_inv step_inv).sound

/-- Both children are busy when the third connection comes; it is passed on with the byte of
the second child.
-/
def threeConnections : List (Event 2 Nat) :=
  let listen : Selected 2 := ⟨true, fun _ => false⟩
  let second : Fin 2 := ⟨1, Nat.one_lt_two⟩
  [.arrive 7, .arrive 8, .select listen, .parent, .parent, .select listen, .parent, .parent,
    .arrive 9, .child second, .child second, .child second, .select ⟨false, fun i => i = second⟩,
    .parent, .parent, .select listen, .parent, .parent]

/-- Three connections for two children. -/
theorem reachable_pool_sound_threeConnections
    : ∃ s, runEvents step (start 2 Nat) threeConnections = some s
      ∧ s.passed = [(0, 7), (1, 8), (1, 9)] ∧ s.navail = 0 ∧ Sound s := by
  have happens : (runEvents step (start 2 Nat) threeConnections).isSome := by decide
  exact ⟨_, (Option.some_get happens).symm, rfl, rfl,
    reachable_pool_sound (.of_isSome happens)⟩

end Minions.Unp.DescriptorPool
