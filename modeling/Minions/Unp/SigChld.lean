import Minions.Logic.Events

/-! The children of the concurrent servers `tcpserv03.c` and `tcpserv04.c`. A child that ends stays
a zombie until the handler of `SIGCHLD` has waited for it. The signal is not queued: while one is
pending, another child that ends adds nothing. The servers differ in `sig_chld`, which calls
`wait` once or `waitpid` until no zombie is left.
Only the end of a child raises the signal here. The kernel raises it for a child that is stopped
or continued as well, and `wait` may then block until another child ends; stopped children are
left out.
-/

namespace Minions.Unp.SigChld

open Minions.Logic

-----------------------------------------------------------------------------------------
-- The server
-----------------------------------------------------------------------------------------

/-- Where the loop of `main` is. -/
inductive Loc where
  /-- In `accept`. -/
  | accepting
  /-- With a connection, before `Fork`. -/
  | accepted
  /-- Before `Close(connfd)`. -/
  | forked
deriving DecidableEq

/-- Where `sig_chld` is. -/
inductive Handler where
  | idle
  /-- Before `wait` or `waitpid`. -/
  | waiting
  /-- With the child it has waited for, before `printf`. -/
  | waited (pid : Nat)
deriving DecidableEq

/-- The server and its children. `SIGCHLD` is blocked while its handler runs. -/
structure Server where
  loc : Loc := .accepting
  handler : Handler := .idle
  /-- `SIGCHLD` is generated and not delivered. -/
  pending : Bool := false
  alive : List Nat := []
  zombies : List Nat := []
  /-- The lines `child %d terminated`. -/
  printed : List Nat := []
  /-- The lines `child -1 terminated`. -/
  failed : Nat := 0
  /-- All children that were forked. -/
  children : List Nat := []

/-- The version of `sig_chld`. -/
inductive Version where
  | sigchldwait
  | sigchldwaitpid
deriving DecidableEq

/-- What can happen next. The kernel chooses a new process ID and the zombie that a `wait` gets. -/
inductive Event where
  | accept
  | fork (pid : Nat)
  | close
  | exit (pid : Nat)
  | deliver
  | wait (pid : Nat)
  /-- `wait` or `waitpid` does not get a child. -/
  | waitNone
  | printf

/-- `wait` and `waitpid` without a zombie: `waitpid` returns, but `wait` only if there is no child
at all.
-/
def Version.waitNone (v : Version) (s : Server) : Option Server :=
  match v with
  | sigchldwait =>
      if s.alive = [] then some { s with handler := .idle, failed := s.failed + 1 } else none
  | sigchldwaitpid => some { s with handler := .idle }

/-- Where `sig_chld` goes on after `printf`. -/
def Version.afterPrintf : Version → Handler
  | sigchldwait => .idle
  | sigchldwaitpid => .waiting

def Version.next (v : Version) (s : Server) : Event → Option Server
  | .accept =>
      if s.handler = .idle ∧ s.loc = .accepting then some { s with loc := .accepted } else none
  | .fork pid =>
      if s.handler = .idle ∧ s.loc = .accepted ∧ pid ∉ s.alive ∧ pid ∉ s.zombies then
        some { s with loc := .forked, alive := s.alive ++ [pid], children := s.children ++ [pid] }
      else none
  | .close =>
      if s.handler = .idle ∧ s.loc = .forked then some { s with loc := .accepting } else none
  | .exit pid =>
      if pid ∈ s.alive then
        some { s with alive := s.alive.erase pid, zombies := s.zombies ++ [pid], pending := true }
      else none
  | .deliver =>
      -- Where it interrupts `accept`, this is called again.
      if s.handler = .idle ∧ s.pending then some { s with handler := .waiting, pending := false }
      else none
  | .wait pid =>
      if s.handler = .waiting ∧ pid ∈ s.zombies then
        some { s with handler := .waited pid, zombies := s.zombies.erase pid }
      else none
  | .waitNone => if s.handler = .waiting ∧ s.zombies = [] then v.waitNone s else none
  | .printf =>
      match s.handler with
      | .waited pid => some { s with handler := v.afterPrintf, printed := s.printed ++ [pid] }
      | _ => none

/-- The states that a server comes to. -/
def Version.Comes (v : Version) (s : Server) : Prop := Reachable v.next {} s

/-- The handler has nothing to do. -/
def Server.Quiet (s : Server) : Prop := s.handler = .idle ∧ s.pending = false

/-- The delivery of the signal and the steps of its handler. -/
def Event.own : Event → Bool
  | .deliver | .wait _ | .waitNone | .printf => true
  | _ => false

/-- A step of the loop of `main`. -/
def Event.isMain : Event → Bool
  | .accept | .fork _ | .close => true
  | _ => false

def Event.isExit : Event → Bool
  | .exit _ => true
  | _ => false

-----------------------------------------------------------------------------------------
-- The steps
-----------------------------------------------------------------------------------------

variable {v : Version} {s s' : Server} {pid : Nat}

/-- The loop of `main` may fork a child, and touches nothing else of the children. -/
theorem main_next {event : Event} (main : event.isMain) (next : v.next s event = some s')
    : ∃ loc pids,
        s' = { s with loc := loc, alive := s.alive ++ pids, children := s.children ++ pids } := by
  cases event with
  | accept | close =>
      simp only [Version.next, Option.ite_none_right_eq_some, Option.some.injEq] at next
      exact ⟨s'.loc, [], by simp [← next.2]⟩
  | fork pid =>
      simp only [Version.next, Option.ite_none_right_eq_some, Option.some.injEq] at next
      exact ⟨_, [pid], next.2.symm⟩
  | _ => cases main

/-- A child ends. -/
theorem exit_next (next : v.next s (.exit pid) = some s')
    : pid ∈ s.alive
      ∧ s' = { s with
          alive := s.alive.erase pid, zombies := s.zombies ++ [pid], pending := true } := by
  simp only [Version.next, Option.ite_none_right_eq_some, Option.some.injEq] at next
  exact ⟨next.1, next.2.symm⟩

/-- The signal is delivered. -/
theorem deliver_next (next : v.next s .deliver = some s')
    : s.handler = .idle ∧ s.pending ∧ s' = { s with handler := .waiting, pending := false } := by
  simp only [Version.next, Option.ite_none_right_eq_some, Option.some.injEq] at next
  exact ⟨next.1.1, next.1.2, next.2.symm⟩

/-- A child is waited for. -/
theorem wait_next (next : v.next s (.wait pid) = some s')
    : s.handler = .waiting ∧ pid ∈ s.zombies
      ∧ s' = { s with handler := .waited pid, zombies := s.zombies.erase pid } := by
  simp only [Version.next, Option.ite_none_right_eq_some, Option.some.injEq] at next
  exact ⟨next.1.1, next.1.2, next.2.symm⟩

/-- There is no child to wait for. -/
theorem waitNone_next (next : v.next s .waitNone = some s')
    : s.handler = .waiting ∧ s.zombies = [] ∧ ∃ failed,
        s' = { s with handler := .idle, failed := failed }
        ∧ (v = .sigchldwaitpid → failed = s.failed) := by
  simp only [Version.next, Option.ite_none_right_eq_some] at next
  obtain ⟨⟨waiting, empty⟩, ends⟩ := next
  refine ⟨waiting, empty, ?_⟩
  cases v with
  | sigchldwait =>
      simp only [Version.waitNone, Option.ite_none_right_eq_some, Option.some.injEq] at ends
      exact ⟨_, ends.2.symm, by simp⟩
  | sigchldwaitpid =>
      cases ends
      exact ⟨s.failed, rfl, fun _ => rfl⟩

/-- A child is printed. -/
theorem printf_next (next : v.next s .printf = some s')
    : ∃ pid, s.handler = .waited pid
      ∧ s' = { s with handler := v.afterPrintf, printed := s.printed ++ [pid] } := by
  cases handler : s.handler with
  | idle | waiting => simp [Version.next, handler] at next
  | waited pid =>
      simp only [Version.next, handler, Option.some.injEq] at next
      exact ⟨pid, rfl, next.symm⟩

-----------------------------------------------------------------------------------------
-- The children
-----------------------------------------------------------------------------------------

/-- The child that the handler has waited for and not printed. -/
def Server.hand (s : Server) : List Nat :=
  match s.handler with
  | .waited pid => [pid]
  | _ => []

/-- Every child is running, or a zombie, or waited for. -/
def Server.Accounted (s : Server) : Prop :=
  s.children.Perm (s.alive ++ (s.zombies ++ (s.hand ++ s.printed)))

/-- A child that moves from one list to the end of another is still there. -/
theorem perm_move {pid : Nat} {xs ys rest : List Nat} (zs : List Nat) (member : pid ∈ ys)
    (perm : xs.Perm (ys ++ (zs ++ rest)))
    : xs.Perm (ys.erase pid ++ ((zs ++ [pid]) ++ rest)) := by
  have first : (ys ++ (zs ++ rest)).Perm (pid :: ys.erase pid ++ (zs ++ rest)) :=
    (List.perm_cons_erase member).append_right _
  have second : (pid :: ys.erase pid ++ (zs ++ rest)).Perm
      (ys.erase pid ++ ((zs ++ [pid]) ++ rest)) := by
    rw [List.append_assoc, List.singleton_append, ← List.append_assoc, ← List.append_assoc]
    exact List.perm_middle.symm
  exact perm.trans (first.trans second)

/-- Every event keeps the accounts. -/
theorem accounted_next {event : Event} (next : v.next s event = some s')
    (accounted : s.Accounted)
    : s'.Accounted := by
  cases event with
  | accept | fork pid | close =>
      obtain ⟨loc, pids, rfl⟩ := main_next rfl next
      have moved := (accounted.append_right pids).trans List.perm_append_comm
      refine moved.trans ?_
      simp only [Server.hand, List.append_assoc]
      rw [← List.append_assoc, ← List.append_assoc s.alive]
      exact List.perm_append_comm.append_right _
  | exit pid =>
      obtain ⟨member, rfl⟩ := exit_next next
      exact perm_move s.zombies member accounted
  | deliver =>
      obtain ⟨idle, -, rfl⟩ := deliver_next next
      simpa [Server.Accounted, Server.hand, idle] using accounted
  | wait pid =>
      obtain ⟨waiting, member, rfl⟩ := wait_next next
      have moved : (s.zombies ++ s.printed).Perm (s.zombies.erase pid ++ (pid :: s.printed)) :=
        perm_move [] member (.refl _)
      refine accounted.trans ?_
      simpa [Server.hand, waiting] using moved.append_left s.alive
  | waitNone =>
      obtain ⟨waiting, -, failed, rfl, -⟩ := waitNone_next next
      simpa [Server.Accounted, Server.hand, waiting] using accounted
  | printf =>
      obtain ⟨pid, handler, rfl⟩ := printf_next next
      have empty : ({ s with handler := v.afterPrintf } : Server).hand = [] := by cases v <;> rfl
      refine accounted.trans ?_
      simp only [Server.hand, handler] at empty ⊢
      rw [empty, List.nil_append]
      exact (List.perm_append_comm.append_left s.zombies).append_left s.alive

-----------------------------------------------------------------------------------------
-- The zombies
-----------------------------------------------------------------------------------------

/-- The calls of `wait` that are due. -/
def Server.due (s : Server) : Nat := s.pending.toNat + if s.handler = .waiting then 1 else 0

/-- No call of `wait` comes for `n` zombies. -/
def Server.Leaves (n : Nat) (s : Server) : Prop := s.due + n ≤ s.zombies.length

/-- The handler runs, or will run, as long as there is a zombie. -/
def Server.Attended (s : Server) : Prop := s.zombies ≠ [] → s.pending ∨ s.handler ≠ .idle

/-- There is a zombie for every call of `wait`. -/
theorem zombie_of_leaves {n : Nat} (leaves : s.Leaves n) (waiting : s.handler = .waiting)
    : s.zombies ≠ [] := by
  intro empty
  simp [Server.Leaves, Server.due, waiting, empty] at leaves

/-- Each run of `sig_chld` in `sigchldwait.c` is for a zombie of its own. -/
theorem leaves_next {n : Nat} {event : Event}
    (next : Version.sigchldwait.next s event = some s') (leaves : s.Leaves n)
    : s'.Leaves n := by
  cases event with
  | accept | fork pid | close =>
      obtain ⟨loc, pids, rfl⟩ := main_next rfl next
      exact leaves
  | exit pid =>
      obtain ⟨-, rfl⟩ := exit_next next
      simp only [Server.Leaves, Server.due, List.length_append, List.length_singleton,
        Bool.toNat_true] at leaves ⊢
      omega
  | deliver =>
      obtain ⟨idle, pending, rfl⟩ := deliver_next next
      simpa [Server.Leaves, Server.due, idle, pending] using leaves
  | wait pid =>
      obtain ⟨waiting, member, rfl⟩ := wait_next next
      have fewer := List.length_erase_of_mem member
      simp [Server.Leaves, Server.due, waiting] at leaves ⊢
      omega
  | waitNone =>
      obtain ⟨waiting, empty, -⟩ := waitNone_next next
      exact absurd empty (zombie_of_leaves leaves waiting)
  | printf =>
      obtain ⟨pid, handler, rfl⟩ := printf_next next
      simpa [Server.Leaves, Server.due, handler, Version.afterPrintf] using leaves

/-- The wait does not fail where there is a zombie. -/
theorem failed_next {event : Event}
    (zombie : v = .sigchldwait → s.handler = .waiting → s.zombies ≠ [])
    (next : v.next s event = some s')
    : s'.failed = s.failed := by
  cases event with
  | accept | fork pid | close =>
      obtain ⟨loc, pids, rfl⟩ := main_next rfl next
      rfl
  | exit pid =>
      obtain ⟨-, rfl⟩ := exit_next next
      rfl
  | deliver =>
      obtain ⟨-, -, rfl⟩ := deliver_next next
      rfl
  | wait pid =>
      obtain ⟨-, -, rfl⟩ := wait_next next
      rfl
  | waitNone =>
      obtain ⟨waiting, empty, failed, rfl, same⟩ := waitNone_next next
      cases v with
      | sigchldwait => exact absurd empty (zombie rfl waiting)
      | sigchldwaitpid => exact same rfl
  | printf =>
      obtain ⟨pid, -, rfl⟩ := printf_next next
      rfl

/-- Every event keeps the zombies attended to. -/
theorem attended_next {event : Event} (next : Version.sigchldwaitpid.next s event = some s')
    (attended : s.Attended)
    : s'.Attended := by
  cases event with
  | accept | fork pid | close =>
      obtain ⟨loc, pids, rfl⟩ := main_next rfl next
      exact attended
  | exit pid =>
      obtain ⟨-, rfl⟩ := exit_next next
      exact fun _ => .inl rfl
  | deliver =>
      obtain ⟨-, -, rfl⟩ := deliver_next next
      exact fun _ => .inr (by simp)
  | wait pid =>
      obtain ⟨-, -, rfl⟩ := wait_next next
      exact fun _ => .inr (by simp)
  | waitNone =>
      obtain ⟨-, empty, failed, rfl, -⟩ := waitNone_next next
      exact fun some_ => absurd empty some_
  | printf =>
      obtain ⟨pid, -, rfl⟩ := printf_next next
      exact fun _ => .inr (by simp [Version.afterPrintf])

-----------------------------------------------------------------------------------------
-- The handler
-----------------------------------------------------------------------------------------

def Handler.rank : Handler → Nat
  | .idle => 0
  | .waiting => 1
  | .waited _ => 2

/-- A bound on the steps of the handler that are still to come. -/
def Server.rank (s : Server) : Nat := 3 * s.zombies.length + 2 * s.pending.toNat + s.handler.rank

/-- Each step of the handler counts, and only a child that ends makes work for it. -/
theorem rank_next {event : Event} (next : v.next s event = some s')
    : s'.rank + event.own.toNat ≤ s.rank + 5 * event.isExit.toNat := by
  cases event with
  | accept | fork pid | close =>
      obtain ⟨loc, pids, rfl⟩ := main_next rfl next
      exact Nat.le_refl _
  | exit pid =>
      obtain ⟨-, rfl⟩ := exit_next next
      simp only [Server.rank, Event.own, Event.isExit, List.length_append, List.length_singleton,
        Bool.toNat_true, Bool.toNat_false]
      omega
  | deliver =>
      obtain ⟨idle, pending, rfl⟩ := deliver_next next
      simp only [Server.rank, Event.own, Event.isExit, idle, pending, Handler.rank,
        Bool.toNat_true, Bool.toNat_false]
      omega
  | wait pid =>
      obtain ⟨waiting, member, rfl⟩ := wait_next next
      have fewer := List.length_erase_of_mem member
      have some_ := List.length_pos_of_mem member
      simp only [Server.rank, Event.own, Event.isExit, waiting, Handler.rank, fewer,
        Bool.toNat_true, Bool.toNat_false]
      omega
  | waitNone =>
      obtain ⟨waiting, -, failed, rfl, -⟩ := waitNone_next next
      simp only [Server.rank, Event.own, Event.isExit, waiting, Handler.rank,
        Bool.toNat_true, Bool.toNat_false]
      omega
  | printf =>
      obtain ⟨pid, handler, rfl⟩ := printf_next next
      cases v <;> simp only [Server.rank, Event.own, Event.isExit, handler, Handler.rank,
        Version.afterPrintf, Bool.toNat_true, Bool.toNat_false] <;> omega

/-- What the steps of the handler take together, by induction on the events. -/
theorem run_rank {events : List Event} (run : runEvents v.next s events = some s')
    : s'.rank + events.countP Event.own ≤ s.rank + 5 * events.countP Event.isExit := by
  induction events generalizing s with
  | nil =>
      cases run
      exact Nat.le_refl _
  | cons event rest ih =>
      obtain ⟨middle, next, later⟩ := runEvents_cons run
      have first := rank_next next
      have bound := ih later
      rw [List.countP_cons, List.countP_cons]
      cases own : event.own <;> cases exits : event.isExit
        <;> simp [own, exits] at first ⊢ <;> omega

/-- A handler that has something to do can do it: `waitpid` never waits, and `wait` has a zombie. -/
theorem goes_on (busy : ¬ s.Quiet)
    (zombie : v = .sigchldwait → s.handler = .waiting → s.zombies ≠ [])
    : ∃ event, event.own ∧ (v.next s event).isSome := by
  cases handler : s.handler with
  | idle =>
      have pending : s.pending := by
        cases pending : s.pending with
        | true => rfl
        | false => exact absurd ⟨handler, pending⟩ busy
      exact ⟨.deliver, rfl, by simp [Version.next, handler, pending]⟩
  | waiting =>
      cases zombies : s.zombies with
      | nil =>
          cases v with
          | sigchldwait => exact absurd zombies (zombie rfl handler)
          | sigchldwaitpid =>
              exact ⟨.waitNone, rfl, by simp [Version.next, handler, zombies, Version.waitNone]⟩
      | cons pid rest => exact ⟨.wait pid, rfl, by simp [Version.next, handler, zombies]⟩
  | waited pid => exact ⟨.printf, rfl, by simp [Version.next, handler]⟩

-----------------------------------------------------------------------------------------
-- Children that end together
-----------------------------------------------------------------------------------------

/-- `n` children are running. -/
def crowd (n : Nat) : Server := { alive := List.range n, children := List.range n }

/-- A crowd of children that have ended can be reached. -/
theorem reachable_crowd (v : Version) (n : Nat) : v.Comes (crowd n) := by
  induction n with
  | zero => exact .refl _
  | succ n ih =>
      refine ih.trans ⟨[.accept, .fork n, .close], ?_⟩
      simp [runEvents, Version.next, crowd, List.range_succ]

/-- All children that run end before the signal is delivered. -/
theorem reachable_exits (v : Version) (alive zombies children : List Nat)
    : Reachable v.next { alive, zombies, children, pending := true }
        { zombies := zombies ++ alive, children, pending := true } := by
  induction alive generalizing zombies with
  | nil =>
      rw [List.append_nil]
      exact .refl _
  | cons pid rest ih =>
      have first : v.next { alive := pid :: rest, zombies, children, pending := true } (.exit pid)
          = some { alive := rest, zombies := zombies ++ [pid], children, pending := true } := by
        simp [Version.next]
      have later := ih (zombies ++ [pid])
      rw [List.append_assoc, List.singleton_append] at later
      exact (Reachable.single first).trans later

/-- Where `n + 1` children end together, `wait` is called for one of them. -/
theorem wait_leaves (n : Nat)
    : ∃ s, Version.sigchldwait.Comes s ∧ s.Quiet ∧ s.Leaves n := by
  obtain ⟨pid, rest, range, length⟩ : ∃ pid rest, List.range (n + 1) = pid :: rest
      ∧ rest.length = n :=
    ⟨0, (List.range n).map Nat.succ, List.range_succ_eq_map, by simp⟩
  have crowded := reachable_crowd .sigchldwait (n + 1)
  rw [crowd, range] at crowded
  have first : Version.sigchldwait.next { alive := pid :: rest, children := pid :: rest }
        (.exit pid)
      = some { alive := rest, zombies := [pid], children := pid :: rest, pending := true } := by
    simp [Version.next]
  have ended := (crowded.trans (.single first)).trans
    (reachable_exits .sigchldwait rest [pid] (pid :: rest))
  have handled : Reachable Version.sigchldwait.next
      { zombies := [pid] ++ rest, children := pid :: rest, pending := true }
      { zombies := rest, children := pid :: rest, printed := [pid] } :=
    ⟨[.deliver, .wait pid, .printf], by simp [runEvents, Version.next, Version.afterPrintf]⟩
  refine ⟨_, ended.trans handled, ⟨rfl, rfl⟩, ?_⟩
  simp [Server.Leaves, Server.due, length]

/-- Whenever its handler has nothing to do, `sigchldwaitpid.c` has left no zombie; `sigchldwait.c`
can leave any number of zombies, which stay whatever happens.
-/
theorem sigChld_reaps
    : (∀ s, Version.sigchldwaitpid.Comes s → s.Quiet → s.zombies = [])
      ∧ ∀ n, ∃ s, Version.sigchldwait.Comes s ∧ s.Quiet
        ∧ ∀ events s', runEvents Version.sigchldwait.next s events = some s'
          → n ≤ s'.zombies.length := by
  constructor
  · intro s comes quiet
    have attended : s.Attended := comes.invariant (fun some_ => absurd rfl some_)
      fun next attended => attended_next next attended
    by_contra some_
    rcases attended some_ with pending | busy
    · rw [quiet.2] at pending
      cases pending
    · exact busy quiet.1
  · intro n
    obtain ⟨s, comes, quiet, leaves⟩ := wait_leaves n
    refine ⟨s, comes, quiet, fun events s' run => ?_⟩
    have leaves' : s'.Leaves n :=
      runEvents_invariant (fun next leaves => leaves_next next leaves) run leaves
    exact Nat.le_trans (Nat.le_add_left _ _) leaves'

/-- In every run of both versions each child is running, a zombie, or waited for and printed once;
the handler never waits for a child that runs, never fails, and makes at most five steps for each
child that has ended.
-/
theorem sigChld_returns (v : Version) (events : List Event) (s : Server)
    (run : runEvents v.next {} events = some s)
    : s.Accounted ∧ s.failed = 0
      ∧ (s.Quiet ∨ ∃ event, event.own ∧ (v.next s event).isSome)
      ∧ events.countP Event.own ≤ 5 * events.countP Event.isExit := by
  have known : (v = .sigchldwait → s.Leaves 0) ∧ s.failed = 0 ∧ s.Accounted := by
    refine runEvents_invariant (P := fun t : Server => (v = .sigchldwait → t.Leaves 0)
      ∧ t.failed = 0 ∧ t.Accounted) ?_ run ⟨fun _ => Nat.le_refl _, rfl, .refl _⟩
    intro t event t' next known
    obtain ⟨leaves, failed, accounted⟩ := known
    refine ⟨fun waits => ?_, ?_, accounted_next next accounted⟩
    · subst waits
      exact leaves_next next (leaves rfl)
    · rw [← failed]
      exact failed_next (fun waits => zombie_of_leaves (leaves waits)) next
  obtain ⟨leaves, failed, accounted⟩ := known
  refine ⟨accounted, failed, ?_, ?_⟩
  · by_cases quiet : s.Quiet
    · exact .inl quiet
    · exact .inr (goes_on quiet fun waits => zombie_of_leaves (leaves waits))
  · have bound := run_rank run
    simp only [Server.rank, List.length_nil, Bool.toNat_false, Handler.rank] at bound
    omega

/-- Two children end together, and the handler runs once. -/
def together : List Event :=
  [.accept, .fork 7, .close, .accept, .fork 8, .close, .exit 7, .exit 8, .deliver, .wait 8, .printf]

/-- Witness: `sigchldwait.c` reports only one of the children. -/
theorem sigChld_returns_together
    : ∃ s, runEvents Version.sigchldwait.next {} together = some s
      ∧ s.zombies = [7] ∧ s.printed = [8] ∧ s.Accounted :=
  ⟨{ zombies := [7], printed := [8], children := [7, 8] }, rfl, rfl, rfl,
    (sigChld_returns .sigchldwait together _ rfl).1⟩

end Minions.Unp.SigChld
